/-
# `Octos.Pipeline.ShellBan` — the pipeline's shell ban, against the tool policy

Rule 23 of `validate.rs` refuses nodes whose tool entries grant a shell, judging an
entry by itself; the agent reads the same entries as the allow list of its policy.
The two readings differ: rule 23 trims an entry and folds case, the policy does
neither.  All that is needed is one direction, entry by entry: an entry that matches
a shell tool in the policy is one that rule 23 refuses (`matches_shell_banned`).
A name matched by the policy has no white space, so what it matches is trimmed.
-/
import Octos.Pipeline.Graph
import Octos.Agent.ToolPolicy

namespace Octos.Pipeline

open Text Agent

/-! ## The ban -/

/-- `SHELL_TOOLS`. -/
def shellTools : List String :=
  ["shell", "bash", "exec", "exec_command", "write_stdin"]

/-- `tool_entry_grants_shell`. -/
def toolEntryGrantsShell (entry : String) : Bool :=
  let e := String.ofList (trim entry.toList)
  if shellTools.contains e then true
  else if e.toList.map Char.toLower = "group:runtime".toList ∨ e = "group:*" then true
  else if "group:".toList <+: e.toList then false
  else
    match wildcard e with
    | some start => start.isEmpty || shellTools.any (fun s => decide (start <+: s.toList))
    | none => false

/-- Rule 23: no shell handler, and no entry that grants a shell. -/
def rule23NoShell (g : PipelineGraph) : List PipelineDiagnostic :=
  g.nodes.toList.flatMap (fun (_, node) =>
    (if node.handler = .shell then [⟨23, .error, .node node.id⟩] else []) ++
      (if (node.tools.find? toolEntryGrantsShell).isSome then [⟨23, .error, .node node.id⟩] else []))

structure ProfileViolation where
  node : Option String
  message : String
  deriving DecidableEq

/-- What `validate_under_profile` reports of a node where `ban_shell` is set. -/
def banShell (node : PipelineNode) : List ProfileViolation :=
  (if node.handler = .shell then [⟨some node.id, "shell handler is banned"⟩] else []) ++
    match node.tools.find? shellTools.contains with
    | some tool => [⟨some node.id, "shell-family tool '" ++ tool ++ "' is banned"⟩]
    | none => []

def banShellViolations (g : PipelineGraph) : List ProfileViolation :=
  g.nodes.toList.flatMap (fun (_, node) => banShell node)

/-! ## One entry -/

/-- The tools of `group:runtime`. -/
def runtimeTools : List String :=
  (expandGroup "group:runtime").getD []

theorem runtimeTools_shell {tool : String} (h : tool ∈ runtimeTools) : tool ∈ shellTools := by
  revert h
  exact (show ∀ tool ∈ runtimeTools, tool ∈ shellTools by decide) tool

theorem shellTools_visible {tool : String} (h : tool ∈ shellTools) :
    ∀ ch ∈ tool.toList, isWhitespace ch = false := by
  have hall : shellTools.all (fun tool => tool.toList.all (fun ch => !isWhitespace ch)) = true := by
    rfl
  intro ch hch
  have htool := List.all_eq_true.mp (List.all_eq_true.mp hall tool h) ch hch
  simpa using htool

theorem shellTools_no_group {tool : String} (h : tool ∈ shellTools) : ¬"group:".toList <+: tool.toList :=
  (show ∀ tool ∈ shellTools, ¬"group:".toList <+: tool.toList by decide) tool h

/-- An entry without white space is judged as it stands. -/
theorem trim_visible {entry : String} (h : ∀ ch ∈ entry.toList, isWhitespace ch = false) :
    String.ofList (trim entry.toList) = entry := by
  rw [trimmed_of_all h, String.ofList_toList]

theorem shellTool_banned {tool : String} (h : tool ∈ shellTools) : toolEntryGrantsShell tool = true := by
  unfold toolEntryGrantsShell
  rw [trim_visible (shellTools_visible h)]
  exact if_pos (List.contains_iff_mem.mpr h)

/-- **An entry that the policy matches with a shell is refused.** -/
theorem matches_shell_banned {reg : RobotToolRegistry} {entry tool : String} (htool : tool ∈ runtimeTools)
    (hreg : reg.tierOf tool = none) (h : entryMatches reg entry tool = true) :
    toolEntryGrantsShell entry = true := by
  have hshell := runtimeTools_shell htool
  rcases entryMatches_cases h with ⟨tier, htier⟩ | ⟨g, hg, rfl, hmem⟩ | ⟨start, hentry, hstart⟩ | rfl
  · rw [hreg] at htier
    cases htier
  · -- of the groups, only the runtime group has shell tools
    have hall : ∀ g ∈ toolGroups, ∀ tool ∈ runtimeTools, tool ∈ g.tools →
        toolEntryGrantsShell g.name = true := by decide
    exact hall g hg tool htool hmem
  · have hvisible : ∀ ch ∈ entry.toList, isWhitespace ch = false := by
      intro ch hch
      rw [hentry] at hch
      rcases List.mem_append.mp hch with hch | hch
      · exact shellTools_visible hshell ch (hstart.subset hch)
      · rw [List.mem_singleton.mp hch]
        decide
    have hgroup : ¬"group:".toList <+: entry.toList := by
      rw [hentry, List.prefix_concat_iff]
      rintro (hend | hin)
      · have hlast := congrArg List.getLast? hend
        rw [List.getLast?_concat] at hlast
        exact absurd hlast (by decide)
      · exact shellTools_no_group hshell (hin.trans hstart)
    have hwild : wildcard entry = some start := by
      unfold wildcard
      rw [hentry, List.getLast?_concat, if_pos rfl, List.dropLast_concat]
    unfold toolEntryGrantsShell
    rw [trim_visible hvisible]
    simp only [hgroup, if_false, hwild]
    split
    · rfl
    · split
      · rfl
      · refine (Bool.or_eq_true _ _).mpr (Or.inr (List.any_eq_true.mpr ⟨tool, hshell, ?_⟩))
        exact decide_eq_true hstart
  · exact shellTool_banned hshell

/-- The other direction fails: what is trimmed here matches nothing there. -/
example : toolEntryGrantsShell " shell " = true ∧
    entryMatches ⟨fun _ => []⟩ " shell " "shell" = false := by decide

/-! ## Lists and graphs -/

theorem rule23_nothing {g : PipelineGraph} (h : rule23NoShell g = []) {x : String} {node : PipelineNode}
    (hx : g.nodes[x]? = some node) :
    node.handler ≠ .shell ∧ node.tools.find? toolEntryGrantsShell = none := by
  have hnode := List.flatMap_eq_nil_iff.mp h (x, node) (Table.mem_rows.mpr hx)
  obtain ⟨hhandler, htools⟩ := List.append_eq_nil_iff.mp hnode
  refine ⟨?_, ?_⟩
  · intro hshell
    rw [if_pos hshell] at hhandler
    cases hhandler
  · cases hfind : node.tools.find? toolEntryGrantsShell with
    | none => rfl
    | some tool =>
        simp only [hfind, Option.isSome_some, if_true] at htools
        cases htools

theorem denied_of_unbanned {reg : RobotToolRegistry} {tools deny : List String} {tool : String}
    (hne : tools ≠ []) (hnone : tools.find? toolEntryGrantsShell = none) (htool : tool ∈ runtimeTools)
    (hreg : reg.tierOf tool = none) :
    ToolPolicy.evaluate reg { allow := tools, deny := deny } tool ≠ .allow := by
  intro hallow
  rcases (ToolPolicy.evaluate_allow_iff.mp hallow).2 with hempty | ⟨entry, hentry, hmatch⟩
  · exact hne hempty
  · exact List.find?_eq_none.mp hnone entry hentry (matches_shell_banned htool hreg hmatch)

/-- **The shell ban agrees with the tool policy.**  A non-empty list of tools in which
rule 23 finds nothing, as the allow list of a policy with any deny list, denies the
tools of the runtime group, if no robot tier registers one of them.  And a graph in
which rule 23 finds nothing has no violation of a profile's shell ban. -/
theorem shell_ban_agrees :
    (∀ (reg : RobotToolRegistry), (∀ tool ∈ runtimeTools, reg.tierOf tool = none) →
      ∀ tools deny : List String, tools ≠ [] → tools.find? toolEntryGrantsShell = none →
        ∀ tool ∈ runtimeTools, ∃ reason,
          ToolPolicy.evaluate reg { allow := tools, deny := deny } tool = .deny reason) ∧
    (∀ g : PipelineGraph, rule23NoShell g = [] →
      (∀ (x : String) (node : PipelineNode), g.nodes[x]? = some node →
        node.tools.find? toolEntryGrantsShell = none) ∧
      banShellViolations g = []) := by
  refine ⟨?_, ?_⟩
  · intro reg hreg tools deny hne hnone tool htool
    cases hdecision : ToolPolicy.evaluate reg { allow := tools, deny := deny } tool with
    | allow => exact absurd hdecision (denied_of_unbanned hne hnone htool (hreg tool htool))
    | deny reason => exact ⟨reason, rfl⟩
  · intro g hg
    refine ⟨fun x node hx => (rule23_nothing hg hx).2, ?_⟩
    refine List.flatMap_eq_nil_iff.mpr ?_
    rintro ⟨x, node⟩ hrow
    obtain ⟨hhandler, htools⟩ := rule23_nothing hg (Table.mem_rows.mp hrow)
    show banShell node = []
    have hnone : node.tools.find? shellTools.contains = none := by
      refine List.find?_eq_none.mpr ?_
      intro tool htool hcontains
      exact List.find?_eq_none.mp htools tool htool (shellTool_banned (List.contains_iff_mem.mp hcontains))
    unfold banShell
    rw [if_neg hhandler, hnone]
    rfl

end Octos.Pipeline
