/-
# `Octos.Agent.ToolPolicy` — which tools a policy permits

`policy.rs` and `robot_groups.rs`.  An entry of an allow or deny list is the name
of a robot tier, resolved through a registry that integrators fill; the name of a
group; a beginning of tool names, followed by `*`; or a tool name.  It is read as
it stands: what is trimmed or folded elsewhere is not trimmed or folded here.
-/
import Octos.Lib.Text

namespace Octos.Agent

open Text

/-! ## Robot tiers -/

/-- In ascending order. -/
inductive SafetyTier
  | observe
  | safeMotion
  | fullActuation
  | emergencyOverride
  deriving DecidableEq

def SafetyTier.rank : SafetyTier → Nat
  | .observe => 0
  | .safeMotion => 1
  | .fullActuation => 2
  | .emergencyOverride => 3

def SafetyTier.all : List SafetyTier :=
  [.observe, .safeMotion, .fullActuation, .emergencyOverride]

def SafetyTier.label : SafetyTier → String
  | .observe => "observe"
  | .safeMotion => "safe_motion"
  | .fullActuation => "full_actuation"
  | .emergencyOverride => "emergency_override"

/-- `from_str`: trimmed, and in any case. -/
def SafetyTier.parse (text : List Char) : Option SafetyTier :=
  SafetyTier.all.find? (fun tier => tier.label.toList == (trim text).map Char.toLower)

def robotGroupStart : String := "group:robot:"

/-- `parse_group_name`. -/
def parseGroupName (group : String) : Option SafetyTier :=
  if robotGroupStart.toList <+: group.toList then
    SafetyTier.parse (group.toList.drop robotGroupStart.toList.length)
  else none

/-- The tools registered at each tier, without those of lower tiers. -/
structure RobotToolRegistry where
  byTier : SafetyTier → List String

/-- The first tier that lists the tool. -/
def RobotToolRegistry.tierOf (reg : RobotToolRegistry) (tool : String) : Option SafetyTier :=
  SafetyTier.all.find? (fun tier => (reg.byTier tier).contains tool)

/-- A group covers the tools of its tier and of lower ones. -/
def RobotToolRegistry.groupCoversTool (reg : RobotToolRegistry) (group tool : String) : Bool :=
  match parseGroupName group with
  | some tier => (reg.tierOf tool).any (fun actual => decide (actual.rank ≤ tier.rank))
  | none => false

/-! ## Groups -/

structure ToolGroupInfo where
  name : String
  tools : List String

/-- `TOOL_GROUPS`. -/
def toolGroups : List ToolGroupInfo :=
  [⟨"group:fs", ["read_file", "write_file", "apply_patch", "edit_file", "diff_edit"]⟩,
   ⟨"group:runtime", ["shell", "exec_command", "write_stdin", "bash"]⟩,
   ⟨"group:web", ["web_search", "web_fetch", "browser"]⟩,
   ⟨"group:search", ["glob", "grep", "list_dir"]⟩,
   ⟨"group:sessions", ["spawn", "spawn_agent", "send_input", "resume_agent", "wait_agent", "close_agent",
      "delegate"]⟩,
   ⟨"group:memory", ["recall_memory", "save_memory", "memory_note", "record_memory_use"]⟩,
   ⟨"group:research", ["search", "synthesize_research", "deep_crawl"]⟩,
   ⟨"group:admin", ["manage_skills", "configure_tool", "model_check"]⟩,
   ⟨"group:media", ["mofa_make", "mofa_describe_content_type", "mofa_comic", "mofa_slides",
      "mofa_infographic", "mofa_cards", "fm_tts", "fm_voice_list"]⟩,
   ⟨"group:delegated", ["delegate_task", "delegate", "spawn", "spawn_agent", "send_input", "resume_agent",
      "wait_agent", "close_agent", "message", "save_memory", "memory_note"]⟩]

/-- `expand_group`. -/
def expandGroup (name : String) : Option (List String) :=
  (toolGroups.find? (fun g => g.name == name)).map ToolGroupInfo.tools

/-! ## Entries -/

/-- What stands before a closing `*`. -/
def wildcard (entry : String) : Option (List Char) :=
  if entry.toList.getLast? = some '*' then some entry.toList.dropLast else none

def entryIsRobotGroup (entry : String) : Bool :=
  (parseGroupName entry).isSome

/-- `entry_matches`. -/
def entryMatches (reg : RobotToolRegistry) (entry tool : String) : Bool :=
  if entryIsRobotGroup entry then reg.groupCoversTool entry tool
  else
    match expandGroup entry with
    | some tools => tools.contains tool
    | none =>
        match wildcard entry with
        | some start => decide (start <+: tool.toList)
        | none => entry == tool

/-! ## Policies -/

inductive PolicyDecision
  | allow
  | deny (reason : String)
  deriving DecidableEq

def robotTierGateReason : String := "robot_tier_gate"

def genericDenyReason : String := "policy_deny"

structure ToolPolicy where
  allow : List String := []
  deny : List String := []

/-- `evaluate`: a deny entry wins, an empty allow list allows. -/
def ToolPolicy.evaluate (reg : RobotToolRegistry) (policy : ToolPolicy) (tool : String) : PolicyDecision :=
  match policy.deny.find? (fun entry => entryMatches reg entry tool) with
  | some entry => .deny (if entryIsRobotGroup entry then robotTierGateReason else genericDenyReason)
  | none =>
      if policy.allow.isEmpty then .allow
      else if policy.allow.any (fun entry => entryMatches reg entry tool) then .allow
      else
        .deny (if policy.allow.any entryIsRobotGroup && (reg.tierOf tool).isSome then robotTierGateReason
          else genericDenyReason)

/-- **What is allowed**: a tool that no deny entry matches, and that an allow entry
matches if there are any. -/
theorem ToolPolicy.evaluate_allow_iff {reg : RobotToolRegistry} {policy : ToolPolicy} {tool : String} :
    policy.evaluate reg tool = .allow ↔
      (∀ entry ∈ policy.deny, entryMatches reg entry tool = false) ∧
        (policy.allow = [] ∨ ∃ entry ∈ policy.allow, entryMatches reg entry tool = true) := by
  unfold ToolPolicy.evaluate
  cases hdeny : policy.deny.find? (fun entry => entryMatches reg entry tool) with
  | some entry =>
      refine iff_of_false (fun h => nomatch h) ?_
      rintro ⟨hnone, -⟩
      have hmatch := List.find?_some hdeny
      rw [hnone entry (List.mem_of_find?_eq_some hdeny)] at hmatch
      cases hmatch
  | none =>
      have hnone : ∀ entry ∈ policy.deny, entryMatches reg entry tool = false := by
        intro entry hentry
        simpa using List.find?_eq_none.mp hdeny entry hentry
      show (if policy.allow.isEmpty then _ else if policy.allow.any _ then _ else _) = _ ↔ _
      split
      · next hempty => exact iff_of_true rfl ⟨hnone, Or.inl (List.isEmpty_iff.mp hempty)⟩
      · next hempty =>
          split
          · next hany => exact iff_of_true rfl ⟨hnone, Or.inr (List.any_eq_true.mp hany)⟩
          · next hany =>
              refine iff_of_false (fun h => nomatch h) ?_
              rintro ⟨-, h | h⟩
              · exact hempty (List.isEmpty_iff.mpr h)
              · exact hany (List.any_eq_true.mpr h)

/-- An entry that is no robot tier matches the members of a group, the names that
begin as it says, or its own name. -/
theorem entryMatches_cases {reg : RobotToolRegistry} {entry tool : String} (h : entryMatches reg entry tool = true) :
    (∃ tier, reg.tierOf tool = some tier) ∨
      (∃ g ∈ toolGroups, g.name = entry ∧ tool ∈ g.tools) ∨
      (∃ start, entry.toList = start ++ ['*'] ∧ start <+: tool.toList) ∨ entry = tool := by
  unfold entryMatches at h
  split at h
  · -- a robot tier covers registered tools only
    unfold RobotToolRegistry.groupCoversTool at h
    split at h
    · obtain ⟨tier, htier, -⟩ := (Option.any_eq_true _ _).mp h
      exact Or.inl ⟨tier, htier⟩
    · cases h
  · right
    split at h
    · next tools hgroup =>
        obtain ⟨g, hfind, rfl⟩ := Option.map_eq_some_iff.mp hgroup
        refine Or.inl ⟨g, List.mem_of_find?_eq_some hfind, ?_, by simpa using h⟩
        simpa using List.find?_some hfind
    · right
      split at h
      · next start hwild =>
          unfold wildcard at hwild
          split at hwild
          · next hlast =>
              obtain rfl := Option.some.inj hwild
              exact Or.inl ⟨_, (List.dropLast_append_getLast? '*' hlast).symm, of_decide_eq_true h⟩
          · cases hwild
      · exact Or.inr (by simpa using h)

end Octos.Agent
