/-
# `Octos.Agent.RepairValid` — what a provider accepts

A provider takes a transcript if every assistant with calls is followed by one
result for each of them, and there are no other results: `ProviderValid`.

The repair makes every transcript so, but for one kind.  `repair_tool_pairs` strips
an assistant of its calls if one of them has no result, and is to remove the
results of that assistant; it removes those that nobody declares any more.  A
result whose id another assistant has reused stays, behind an assistant that has no
calls.
-/
import Octos.Agent.RepairOutline

namespace Octos.Agent

open Block

/-! ## Pairs, block by block -/

def pairBlock (matched : String → Bool) (remaining : List String) (b : Block Message) :
    Block Message :=
  ⟨stripCalls matched b.head, b.rows.filter (keepsResult remaining)⟩

theorem stripCalls_role (matched : String → Bool) (m : Message) :
    (stripCalls matched m).role = m.role := by
  rw [stripCalls]
  split <;> rfl

theorem stripCalls_tool {matched : String → Bool} {m : Message} (h : m.opens = false) :
    stripCalls matched m = m := by
  have hrole := Message.isTool_of_opens h
  rw [Message.isTool, beq_iff_eq] at hrole
  refine if_neg ?_
  rw [hrole]
  rintro ⟨hno, -⟩
  cases hno

theorem stripCalls_opens (matched : String → Bool) (m : Message) :
    (stripCalls matched m).opens = m.opens := by
  rw [Message.opens, Message.isTool, stripCalls_role]
  rfl

/-- A row that is stripped declares nothing any more. -/
theorem stripCalls_declared {matched : String → Bool} {m : Message} :
    (stripCalls matched m).declared =
      if m.declared.all matched then m.declared else [] := by
  cases hrole : m.role with
  | assistant =>
      have hdeclared : m.declared = m.callIds := if_pos hrole
      rw [hdeclared, stripCalls]
      by_cases hall : m.callIds.all matched = true
      · have hany : m.callIds.any (fun id => !matched id) = false := by
          rw [List.any_eq_false]
          intro x hx
          simpa using List.all_eq_true.mp hall x hx
        rw [if_neg (by rw [hany]; simp), if_pos hall, hdeclared]
      · have hany : m.callIds.any (fun id => !matched id) = true := by
          simpa using hall
        rw [if_pos ⟨hrole, hany⟩, if_neg hall]
        exact if_pos hrole
  | _ =>
      have hsame : stripCalls matched m = m := if_neg (by rw [hrole]; simp)
      have hnone : m.declared = [] := if_neg (by rw [hrole]; simp)
      rw [hsame, hnone]
      rfl

theorem allCallIds_join {lead : List Message} {blocks : List (Block Message)}
    (h : Blocked Message.opens lead blocks) : allCallIds (join lead blocks) = declaredIn blocks := by
  have hresults : ∀ {rows : List Message}, AreResults rows →
      (rows.filter (fun m => m.role == .assistant)) = [] := by
    intro rows hrows
    rw [List.filter_eq_nil_iff]
    intro m hm
    have hrole := Message.isTool_of_opens (hrows m hm)
    rw [Message.isTool, beq_iff_eq] at hrole
    rw [hrole]
    intro hno
    cases hno
  have hflat : ∀ blocks : List (Block Message), (∀ b ∈ blocks, AreResults b.rows) →
      allCallIds (flat blocks) = declaredIn blocks := by
    intro blocks
    induction blocks with
    | nil => intro _; rfl
    | cons b blocks ih =>
        intro hrows
        rw [declaredIn_cons, ← ih (fun c hc => hrows c (List.mem_cons_of_mem _ hc)), allCallIds,
          flat_cons, List.filter_cons, List.filter_append, hresults (hrows b List.mem_cons_self),
          List.nil_append]
        cases hrole : b.head.role <;> simp [Message.declared, hrole, allCallIds]
  rw [← hflat blocks h.rows, allCallIds, join, List.filter_append, hresults h.lead]
  rfl

theorem mem_resultIds {messages : List Message} {x : String} :
    x ∈ resultIds messages ↔ x ∈ outcomes (outline messages) := by
  rw [mem_outcomes, resultIds, List.mem_filterMap]
  constructor
  · rintro ⟨m, hm, hid⟩
    obtain ⟨hmem, htool⟩ := List.mem_filter.mp hm
    exact ⟨m, hmem, by rw [Message.opens, htool]; rfl, hid⟩
  · rintro ⟨m, hm, hopens, hid⟩
    exact ⟨m, List.mem_filter.mpr ⟨hm, Message.isTool_of_opens hopens⟩, hid⟩

/-- Calls with a result. -/
def matchedIn (messages : List Message) (id : String) : Bool :=
  (allCallIds messages).contains id && (resultIds messages).contains id

/-- The ids that are still declared once rows are stripped. -/
def remainingIn (matched : String → Bool) (blocks : List (Block Message)) : List String :=
  blocks.flatMap (fun b => (stripCalls matched b.head).declared)

theorem repairToolPairs_join {lead : List Message} {blocks : List (Block Message)}
    {matched : String → Bool} {remaining : List String} (h : Blocked Message.opens lead blocks)
    (hmatched : matchedIn (join lead blocks) = matched)
    (hremain : remainingIn matched blocks = remaining) :
    repairToolPairs (join lead blocks) =
      join (lead.filter (keepsResult remaining)) (blocks.map (pairBlock matched remaining)) := by
  have hrows : ∀ {rows : List Message}, AreResults rows → rows.map (stripCalls matched) = rows := by
    intro rows hrows
    conv => rhs; rw [← List.map_id rows]
    exact List.map_congr_left (fun m hm => stripCalls_tool (hrows m hm))
  have hmap : (join lead blocks).map (stripCalls matched) =
      join lead (blocks.map (fun b => ⟨stripCalls matched b.head, b.rows⟩)) := by
    have hflat : ∀ blocks : List (Block Message), (∀ b ∈ blocks, AreResults b.rows) →
        (flat blocks).map (stripCalls matched) =
          flat (blocks.map (fun b => ⟨stripCalls matched b.head, b.rows⟩)) := by
      intro blocks
      induction blocks with
      | nil => intro _; rfl
      | cons b blocks ih =>
          intro hblocks
          rw [List.map_cons, flat_cons, flat_cons, List.map_cons, List.map_append,
            hrows (hblocks b List.mem_cons_self), ih (fun c hc => hblocks c (List.mem_cons_of_mem _ hc))]
    rw [join, List.map_append, hrows h.lead, hflat blocks h.rows]
    rfl
  have hblocked : Blocked Message.opens lead
      (blocks.map (fun b => ⟨stripCalls matched b.head, b.rows⟩)) := by
    refine ⟨h.lead, ?_, ?_⟩
    · intro b hb
      obtain ⟨b, hmem, rfl⟩ := List.mem_map.mp hb
      rw [stripCalls_opens]
      exact h.head b hmem
    · intro b hb
      obtain ⟨b, hmem, rfl⟩ := List.mem_map.mp hb
      exact h.rows b hmem
  have hremaining : allCallIds ((join lead blocks).map (stripCalls matched)) = remaining := by
    rw [hmap, allCallIds_join hblocked, declaredIn, List.flatMap_map, ← hremain]
    rfl
  have hpairs : repairToolPairs (join lead blocks) =
      ((join lead blocks).map (stripCalls (matchedIn (join lead blocks)))).filter (keepsResult
        (allCallIds ((join lead blocks).map (stripCalls (matchedIn (join lead blocks)))))) := rfl
  rw [hpairs, hmatched]
  rw [hremaining, hmap, join, List.filter_append]
  have hflat : ∀ blocks : List (Block Message), (∀ b ∈ blocks, b.head.opens = true) →
      (flat (blocks.map (fun b => ⟨stripCalls matched b.head, b.rows⟩))).filter
        (keepsResult remaining) = flat (blocks.map (pairBlock matched remaining)) := by
    intro blocks
    induction blocks with
    | nil => intro _; rfl
    | cons b blocks ih =>
        intro hheads
        have hkeep : keepsResult remaining (stripCalls matched b.head) = true := by
          have := hheads b List.mem_cons_self
          rw [← stripCalls_opens matched] at this
          rw [keepsResult]
          rw [Message.opens] at this
          rw [this]
          rfl
        rw [List.map_cons, List.map_cons, flat_cons, flat_cons, List.filter_cons, if_pos hkeep,
          List.filter_append, ih (fun c hc => hheads c (List.mem_cons_of_mem _ hc))]
        rfl
  rw [hflat blocks h.head]
  rfl

/-! ## Missing results, block by block -/

/-- An assistant or a user: what ends the window of the assistant before it. -/
def Message.speaks (m : Message) : Bool :=
  m.role == .assistant || m.role == .user

theorem window_block {rows : List Message} {blocks : List (Block Message)}
    (hrows : ∀ m ∈ rows, m.speaks = false) (hheads : ∀ b ∈ blocks, b.head.speaks = true) :
    window (rows ++ flat blocks) = rows := by
  have hquiet : ∀ m : Message, (m.role != .assistant && m.role != .user) = !m.speaks := by
    intro m
    rw [Message.speaks, Bool.not_or]
    rfl
  rw [window]
  simp only [hquiet]
  rw [List.takeWhile_append_of_pos (by simpa using hrows)]
  cases blocks with
  | nil => simp
  | cons b blocks =>
      rw [flat_cons, List.takeWhile_cons_of_neg (by simp [hheads b List.mem_cons_self]),
        List.append_nil]

/-- An assistant's block with what is missing in it. -/
def completeBlock (b : Block Message) : Block Message :=
  if b.head.hasToolCalls then
    ⟨b.head, b.rows ++ placeholders b.head (resultIds b.rows) b.head.calls⟩
  else b

/-- Rows that do not speak have no calls. -/
theorem synthesizeLoop_quiet : ∀ {rows before rest : List Message} {fuel : Nat},
    (∀ m ∈ rows, m.hasToolCalls = false) → rows.length ≤ fuel →
    synthesizeLoop fuel before.length (before ++ (rows ++ rest)) =
      synthesizeLoop (fuel - rows.length) (before ++ rows).length (before ++ rows ++ rest) := by
  intro rows
  induction rows with
  | nil =>
      intro before rest fuel _ _
      simp
  | cons m rows ih =>
      intro before rest fuel hrows hfuel
      rw [List.length_cons] at hfuel
      obtain ⟨fuel, rfl⟩ : ∃ n, fuel = n + 1 := ⟨fuel - 1, by omega⟩
      have hget : (before ++ (m :: rows ++ rest))[before.length]? = some m := by
        rw [List.cons_append, List.getElem?_append_right (le_refl _), Nat.sub_self]
        rfl
      have hstep : synthesizeLoop (fuel + 1) before.length (before ++ (m :: rows ++ rest)) =
          synthesizeLoop fuel (before.length + 1) (before ++ (m :: rows ++ rest)) := by
        rw [synthesizeLoop, hget]
        dsimp only
        rw [hrows m List.mem_cons_self]
        rfl
      have hmove : before ++ (m :: rows ++ rest) = (before ++ [m]) ++ (rows ++ rest) := by simp
      have hlen : before.length + 1 = (before ++ [m]).length := by simp
      have hfuel' : fuel + 1 - (rows.length + 1) = fuel - rows.length := by omega
      rw [hstep, hmove, hlen, ih (fun x hx => hrows x (List.mem_cons_of_mem _ hx)) (by omega),
        List.length_cons, hfuel']
      simp

theorem hasToolCalls_of_quiet {m : Message} (h : m.speaks = false) : m.hasToolCalls = false := by
  rw [Message.speaks, Bool.or_eq_false_iff] at h
  rw [Message.hasToolCalls, h.1]
  rfl

theorem synthesizeLoop_blocks : ∀ {blocks : List (Block Message)} {before : List Message}
    {fuel : Nat}, (∀ b ∈ blocks, b.head.speaks = true ∧ ∀ m ∈ b.rows, m.speaks = false) →
    (flat blocks).length ≤ fuel →
    synthesizeLoop fuel before.length (before ++ flat blocks) =
      before ++ flat (blocks.map completeBlock) := by
  intro blocks
  induction blocks with
  | nil =>
      intro before fuel _ _
      rw [flat_nil, List.append_nil, List.map_nil, flat_nil, List.append_nil]
      cases fuel with
      | zero => rfl
      | succ fuel => rw [synthesizeLoop, List.getElem?_eq_none (le_refl _)]
  | cons b blocks ih =>
      intro before fuel hblocks hfuel
      obtain ⟨_, hrows⟩ := hblocks b List.mem_cons_self
      have htail := fun c hc => hblocks c (List.mem_cons_of_mem _ hc)
      rw [flat_cons, List.length_cons, List.length_append] at hfuel
      cases hcalls : b.head.hasToolCalls with
      | false =>
          have hquiet : ∀ m ∈ b.head :: b.rows, m.hasToolCalls = false := by
            intro m hm
            rcases List.mem_cons.mp hm with rfl | hm
            · exact hcalls
            · exact hasToolCalls_of_quiet (hrows m hm)
          have hsame : completeBlock b = b := if_neg (by rw [hcalls]; exact Bool.false_ne_true)
          have hlist : flat (b :: blocks) = (b.head :: b.rows) ++ flat blocks := rfl
          rw [List.map_cons, hsame, hlist, synthesizeLoop_quiet hquiet (by rw [List.length_cons]; omega),
            ih htail (by rw [List.length_cons]; omega)]
          simp
      | true =>
          obtain ⟨fuel, rfl⟩ : ∃ n, fuel = n + 1 := ⟨fuel - 1, by omega⟩
          have hget : (before ++ flat (b :: blocks))[before.length]? = some b.head := by
            rw [List.getElem?_append_right (le_refl _), Nat.sub_self]
            rfl
          have hdrop : (before ++ flat (b :: blocks)).drop (before.length + 1) =
              b.rows ++ flat blocks := by
            simp
          have hwindow : window (b.rows ++ flat blocks) = b.rows :=
            window_block hrows (fun c hc => (htail c hc).1)
          generalize hph : placeholders b.head (resultIds b.rows) b.head.calls = ph
          have hfilled : completeBlock b = ⟨b.head, b.rows ++ ph⟩ := by
            rw [completeBlock, if_pos hcalls, hph]
          have hcut : before ++ flat (b :: blocks) = (before ++ b.head :: b.rows) ++ flat blocks := by
            simp
          have hj : before.length + 1 + b.rows.length = (before ++ b.head :: b.rows).length := by
            rw [List.length_append, List.length_cons]
            omega
          rw [synthesizeLoop, hget]
          dsimp only
          rw [if_pos hcalls, hdrop, hwindow, hph, hj, hcut, List.take_left, List.drop_left,
            ← List.length_append, ← List.append_assoc, ih htail (by omega), List.map_cons, hfilled]
          simp

theorem synthesizeMissingToolResults_join {lead : List Message} {blocks : List (Block Message)}
    (h : Blocked Message.speaks lead blocks) :
    synthesizeMissingToolResults (join lead blocks) = join lead (blocks.map completeBlock) := by
  have hlead : ∀ m ∈ lead, m.hasToolCalls = false :=
    fun m hm => hasToolCalls_of_quiet (h.lead m hm)
  have hlength : (join lead blocks).length - lead.length = (flat blocks).length := by
    simp [join]
  have hstart := @synthesizeLoop_quiet lead [] (flat blocks) (join lead blocks).length hlead
    (by simp [join])
  rw [List.nil_append, List.nil_append] at hstart
  show synthesizeLoop _ ([] : List Message).length (lead ++ flat blocks) = _
  rw [hstart, hlength, synthesizeLoop_blocks (fun b hb => ⟨h.head b hb, h.rows b hb⟩) (le_refl _)]
  rfl

theorem placeholders_ids {m : Message} : ∀ {calls : List ToolCall} {answered : List String},
    (placeholders m answered calls).map Message.toolCallId =
      ((firsts (calls.map ToolCall.id)).filter (fun x => !answered.contains x)).map some := by
  intro calls
  induction calls with
  | nil => intro answered; rfl
  | cons call calls ih =>
      intro answered
      rw [placeholders, List.map_cons, firsts]
      cases hcall : answered.contains call.id with
      | true =>
          rw [if_pos rfl, ih, List.filter_cons, if_neg (by rw [hcall]; exact Bool.false_ne_true),
            List.filter_filter]
          congr 1
          refine List.filter_congr ?_
          intro x _
          by_cases hx : x = call.id
          · rw [hx, hcall]
            simp
          · simp [hx]
      | false =>
          rw [if_neg (by simp), List.map_cons, ih, List.filter_cons, if_pos (by rw [hcall]; rfl),
            List.map_cons, List.filter_filter]
          congr 2
          refine List.filter_congr ?_
          intro x _
          rw [List.contains_cons, Bool.not_or, Bool.and_comm]
          congr 1
          by_cases hx : x = call.id <;> simp [hx]

theorem completeBlock_head (b : Block Message) : (completeBlock b).head = b.head := by
  rw [completeBlock]
  split <;> rfl

theorem areResults_placeholders {m : Message} : ∀ {calls : List ToolCall} {answered : List String},
    AreResults (placeholders m answered calls) := by
  intro calls
  induction calls with
  | nil => intro answered r hr; cases hr
  | cons call calls ih =>
      intro answered
      rw [placeholders]
      split
      · exact ih
      · intro r hr
        rcases List.mem_cons.mp hr with rfl | hr
        · rfl
        · exact ih r hr

theorem areResults_complete {b : Block Message} (h : AreResults b.rows) :
    AreResults (completeBlock b).rows := by
  rw [completeBlock]
  split
  · intro m hm
    rcases List.mem_append.mp hm with hm | hm
    · exact h m hm
    · exact areResults_placeholders m hm
  · exact h

/-! ## Gathered and paired -/

/-- The ids of rows that keep their calls. -/
def remainingOf (rows : List Row) : List String :=
  ((servedIn rows).filter (Served.isComplete rows)).flatMap Served.ids

/-- A block after the pass over the pairs. -/
structure Paired (rows : List Row) (s : Served) (b : Block Message) : Prop where
  role : s.ids ≠ [] → b.head.role = .assistant
  declared : b.head.declared = if s.isComplete rows then s.ids else []
  rowIds : b.rows.map Message.toolCallId =
    (if s.isComplete rows then s.got else s.got.filter (remainingOf rows).contains).map some

theorem results_owned {owned : List Message} {got : List String}
    (h : owned.map Message.toolCallId = got.map some) : results owned = got := by
  have hmap : results owned = (owned.map Message.toolCallId).filterMap id := by
    rw [List.filterMap_map]
    rfl
  rw [hmap, h, List.filterMap_map]
  exact List.filterMap_some

section Pairs

variable {lead lead' : List Message} {blocks blocks' : List (Block Message)} {rows : List Row}

theorem Files.mem_results {all : List String} {s : Served} {b : Block Message} {x : String}
    (h : Files all s b) (hx : x ∈ all) : x ∈ results b.rows ↔ x ∈ s.got := by
  obtain ⟨owned, loose, hrows, hids, hloose⟩ := h.rows
  rw [hrows, results_append, List.mem_append, results_owned hids]
  refine ⟨?_, Or.inl⟩
  rintro (hgot | hfar)
  · exact hgot
  · exact absurd hx (hloose x hfar)

/-- A call is matched in the gathered transcript if it has a result in the first. -/
theorem matchedIn_iff (hblocked : Blocked Message.opens lead' blocks')
    (hlead : ∀ x ∈ results lead', x ∉ declaredIn blocks')
    (hfiles : List.Forall₂ (Files (declaredIn blocks')) (servedIn rows) blocks') {b : Block Message}
    (hb : b ∈ blocks') {x : String} (hx : x ∈ b.head.declared) :
    matchedIn (join lead' blocks') x = true ↔ x ∈ outcomes rows := by
  have hall : x ∈ declaredIn blocks' := List.mem_flatMap.mpr ⟨b, hb, hx⟩
  obtain ⟨s, hs, hfile⟩ := forall₂_mem_right hfiles hb
  rw [matchedIn, allCallIds_join hblocked, Bool.and_eq_true, List.contains_iff_mem,
    List.contains_iff_mem, mem_resultIds, mem_outcomes_join hblocked]
  rw [← hfile.ids] at hx
  rw [← exists_got_iff hs hx]
  constructor
  · rintro ⟨_, hfar | ⟨c, hc, hrows⟩⟩
    · exact absurd hall (hlead x hfar)
    · obtain ⟨s', hs', hfile'⟩ := forall₂_mem_right hfiles hc
      exact ⟨s', hs', (hfile'.mem_results hall).mp hrows⟩
  · rintro ⟨s', hs', hgot⟩
    obtain ⟨c, hc, hfile'⟩ := forall₂_mem_left hfiles hs'
    exact ⟨hall, Or.inr ⟨c, hc, (hfile'.mem_results hall).mpr hgot⟩⟩

theorem isComplete_iff (hblocked : Blocked Message.opens lead' blocks')
    (hlead : ∀ x ∈ results lead', x ∉ declaredIn blocks')
    (hfiles : List.Forall₂ (Files (declaredIn blocks')) (servedIn rows) blocks') {s : Served}
    {b : Block Message} (hb : b ∈ blocks') (hfile : Files (declaredIn blocks') s b) :
    b.head.declared.all (matchedIn (join lead' blocks')) = s.isComplete rows := by
  rw [Served.isComplete, hfile.ids, Bool.eq_iff_iff, List.all_eq_true, List.all_eq_true]
  refine forall₂_congr ?_
  intro x hx
  rw [matchedIn_iff hblocked hlead hfiles hb hx, List.contains_iff_mem]

theorem remainingIn_eq {matched : String → Bool} : ∀ {ss : List Served}
    {blocks : List (Block Message)},
    List.Forall₂ (fun s (b : Block Message) => s.ids = b.head.declared ∧
      b.head.declared.all matched = s.isComplete rows) ss blocks →
    remainingIn matched blocks = (ss.filter (Served.isComplete rows)).flatMap Served.ids := by
  intro ss blocks h
  induction h with
  | nil => rfl
  | @cons s b ss blocks hsb _ ih =>
      have hcons : remainingIn matched (b :: blocks) =
          (stripCalls matched b.head).declared ++ remainingIn matched blocks := rfl
      rw [hcons, ih, stripCalls_declared, hsb.2, List.filter_cons, ← hsb.1]
      cases s.isComplete rows <;> rfl

theorem filter_keepsResult_owned {remaining got : List String} {owned : List Message}
    (htools : AreResults owned) (h : owned.map Message.toolCallId = got.map some) :
    (owned.filter (keepsResult remaining)).map Message.toolCallId =
      (got.filter remaining.contains).map some := by
  induction owned generalizing got with
  | nil =>
      cases got with
      | nil => rfl
      | cons x got => cases h
  | cons m owned ih =>
      cases got with
      | nil => cases h
      | cons x got =>
          rw [List.map_cons, List.map_cons] at h
          obtain ⟨hid, htail⟩ := List.cons.inj h
          have hkeep : keepsResult remaining m = remaining.contains x := by
            rw [keepsResult, Message.isTool_of_opens (htools m List.mem_cons_self), hid]
            rfl
          have hrest := ih (fun y hy => htools y (List.mem_cons_of_mem _ hy)) htail
          rw [List.filter_cons, List.filter_cons, hkeep]
          cases remaining.contains x with
          | true => rw [if_pos rfl, if_pos rfl, List.map_cons, List.map_cons, hid, hrest]
          | false => rw [if_neg (by simp), if_neg (by simp), hrest]

/-- Results that nobody declares are removed. -/
theorem filter_keepsResult_loose {remaining : List String} {loose : List Message}
    (htools : AreResults loose) (h : ∀ x ∈ results loose, x ∉ remaining) :
    loose.filter (keepsResult remaining) = [] := by
  rw [List.filter_eq_nil_iff]
  intro m hm
  rw [keepsResult, Message.isTool_of_opens (htools m hm)]
  cases hid : m.toolCallId with
  | none => exact nofun
  | some x =>
      have hnot := h x (Agent.mem_results.mpr ⟨m, hm, hid⟩)
      simpa using hnot

/-- **Gathered and paired.**  All that remains are the blocks, as the outline says. -/
theorem repairToolPairs_paired (h : Blocked Message.opens lead blocks)
    (hrows : outline (join lead blocks) = rows) :
    ∃ blocks', repairToolPairs (repairMessageOrder (join lead blocks)) = flat blocks' ∧
      Blocked Message.opens [] blocks' ∧
      blocks'.map (fun b => b.head.role) = blocks.map (fun b => b.head.role) ∧
      List.Forall₂ (Paired rows) (servedIn rows) blocks' := by
  obtain ⟨lead₁, blocks₁, hpass, hblocked, hheads, hlead, hfiles⟩ := repairMessageOrder_files h
  have hdeclared : declaredIn blocks = declaredIn blocks₁ := by
    have hmap : ∀ bs : List (Block Message),
        declaredIn bs = (bs.map Block.head).flatMap Message.declared := by
      intro bs
      rw [List.flatMap_map]
      rfl
    rw [hmap, hmap, hheads]
  rw [hdeclared] at hlead hfiles
  rw [hrows] at hfiles
  have hcomplete : List.Forall₂ (fun s (b : Block Message) => Files (declaredIn blocks₁) s b ∧
      s ∈ servedIn rows ∧ AreResults b.rows ∧
      b.head.declared.all (matchedIn (join lead₁ blocks₁)) = s.isComplete rows)
      (servedIn rows) blocks₁ := by
    refine forall₂_imp_mem hfiles ?_
    intro s b hs hb hfile
    exact ⟨hfile, hs, hblocked.rows b hb, isComplete_iff hblocked hlead hfiles hb hfile⟩
  have hremaining : remainingIn (matchedIn (join lead₁ blocks₁)) blocks₁ = remainingOf rows := by
    refine remainingIn_eq (hcomplete.imp ?_)
    rintro s b ⟨hfile, _, _, hall⟩
    exact ⟨hfile.ids, hall⟩
  have hsub : ∀ x, x ∈ remainingOf rows → x ∈ declaredIn blocks₁ := by
    intro x hx
    obtain ⟨s, hs, hx⟩ := List.mem_flatMap.mp hx
    obtain ⟨b, hb, hfile⟩ := forall₂_mem_left hfiles (List.mem_filter.mp hs).1
    rw [hfile.ids] at hx
    exact List.mem_flatMap.mpr ⟨b, hb, hx⟩
  have hempty : lead₁.filter (keepsResult (remainingOf rows)) = [] :=
    filter_keepsResult_loose hblocked.lead (fun x hx hmem => hlead x hx (hsub x hmem))
  refine ⟨blocks₁.map (pairBlock (matchedIn (join lead₁ blocks₁)) (remainingOf rows)), ?_, ?_, ?_, ?_⟩
  · rw [hpass, repairToolPairs_join hblocked rfl hremaining, hempty]
    rfl
  · refine ⟨List.forall_mem_nil _, ?_, ?_⟩
    · intro b hb
      obtain ⟨c, hc, rfl⟩ := List.mem_map.mp hb
      show (stripCalls _ c.head).opens = true
      rw [stripCalls_opens]
      exact hblocked.head c hc
    · intro b hb
      obtain ⟨c, hc, rfl⟩ := List.mem_map.mp hb
      exact areResults_filter (hblocked.rows c hc)
  · have hroles : ∀ bs : List (Block Message),
        bs.map (fun b => b.head.role) = (bs.map Block.head).map Message.role := by
      intro bs
      rw [List.map_map]
      rfl
    rw [hroles blocks, ← hheads, List.map_map, List.map_map]
    refine List.map_congr_left ?_
    intro b _
    exact stripCalls_role _ _
  · rw [List.forall₂_map_right_iff]
    refine hcomplete.imp ?_
    rintro s b ⟨hfile, hmem, htools, hall⟩
    obtain ⟨owned, loose, hsplit, hids, hloose⟩ := hfile.rows
    have howned : AreResults owned := fun m hm => htools m (by
      rw [hsplit]
      exact List.mem_append_left _ hm)
    have hfar : AreResults loose := fun m hm => htools m (by
      rw [hsplit]
      exact List.mem_append_right _ hm)
    have hkept : (pairBlock (matchedIn (join lead₁ blocks₁)) (remainingOf rows) b).rows =
        owned.filter (keepsResult (remainingOf rows)) := by
      show b.rows.filter _ = _
      rw [hsplit, List.filter_append, filter_keepsResult_loose hfar
        (fun x hx hmem => hloose x hx (hsub x hmem)), List.append_nil]
    refine ⟨?_, ?_, ?_⟩
    · intro hids
      show (stripCalls _ b.head).role = _
      rw [stripCalls_role]
      rw [hfile.ids, Message.declared] at hids
      by_contra hrole
      exact hids (if_neg hrole)
    · show (stripCalls _ b.head).declared = _
      rw [stripCalls_declared, hall, hfile.ids]
    · rw [hkept, filter_keepsResult_owned howned hids]
      congr 1
      split
      · next hdone =>
          rw [List.filter_eq_self]
          intro x hx
          rw [List.contains_iff_mem]
          exact List.mem_flatMap.mpr ⟨s, List.mem_filter.mpr ⟨hmem, hdone⟩,
            mem_firsts.mp (hfile.sub.subset hx)⟩
      · rfl

end Pairs

/-! ## System messages between the blocks -/

/-- The blocks of the rows that speak: system messages count to the block before. -/
def regroup : List (Block Message) → List Message × List (Block Message)
  | [] => ([], [])
  | b :: blocks =>
      if b.head.speaks then
        ([], ⟨b.head, b.rows ++ (regroup blocks).1⟩ :: (regroup blocks).2)
      else (b.head :: (b.rows ++ (regroup blocks).1), (regroup blocks).2)

theorem join_regroup (blocks : List (Block Message)) :
    join (regroup blocks).1 (regroup blocks).2 = flat blocks := by
  induction blocks with
  | nil => rfl
  | cons b blocks ih =>
      rw [regroup]
      split
      · rw [join, List.nil_append, flat_cons, flat_cons, List.append_assoc]
        exact congrArg (fun rest => b.head :: (b.rows ++ rest)) ih
      · rw [join, List.cons_append, List.append_assoc, flat_cons]
        exact congrArg (fun rest => b.head :: (b.rows ++ rest)) ih

theorem speaks_of_result {m : Message} (h : m.opens = false) : m.speaks = false := by
  have hrole := Message.isTool_of_opens h
  rw [Message.isTool, beq_iff_eq] at hrole
  rw [Message.speaks, hrole]
  rfl

theorem blocked_regroup : ∀ {blocks : List (Block Message)},
    (∀ b ∈ blocks, AreResults b.rows) →
    Blocked Message.speaks (regroup blocks).1 (regroup blocks).2 := by
  intro blocks
  induction blocks with
  | nil => intro _; exact ⟨List.forall_mem_nil _, List.forall_mem_nil _, List.forall_mem_nil _⟩
  | cons b blocks ih =>
      intro hrows
      have htail := ih (fun c hc => hrows c (List.mem_cons_of_mem _ hc))
      have hquiet : ∀ m ∈ b.rows ++ (regroup blocks).1, m.speaks = false := by
        intro m hm
        rcases List.mem_append.mp hm with hm | hm
        · exact speaks_of_result (hrows b List.mem_cons_self m hm)
        · exact htail.lead m hm
      rw [regroup]
      split
      · next hspeaks =>
          refine ⟨List.forall_mem_nil _, ?_, ?_⟩
          · intro c hc
            rcases List.mem_cons.mp hc with rfl | hc
            · exact hspeaks
            · exact htail.head c hc
          · intro c hc
            rcases List.mem_cons.mp hc with rfl | hc
            · exact hquiet
            · exact htail.rows c hc
      · next hspeaks =>
          refine ⟨?_, htail.head, htail.rows⟩
          intro m hm
          rcases List.mem_cons.mp hm with rfl | hm
          · exact Bool.eq_false_iff.mpr hspeaks
          · exact hquiet m hm

/-- The calls of a block that have no result in it. -/
def missing (b : Block Message) : List Message :=
  placeholders b.head (resultIds b.rows) b.head.calls

/-- The next block is opened by a system message. -/
def systemNext : List (Block Message) → Bool
  | [] => false
  | b :: _ => !b.head.speaks

theorem regroup_lead : ∀ {blocks : List (Block Message)},
    (systemNext blocks = false → (regroup blocks).1 = []) ∧
      ((∀ b ∈ blocks, b.head.opens = true ∧ (b.head.speaks = false → b.rows = [])) →
        resultIds (regroup blocks).1 = []) := by
  intro blocks
  induction blocks with
  | nil => exact ⟨fun _ => rfl, fun _ => rfl⟩
  | cons b blocks ih =>
      rw [regroup]
      cases hspeaks : b.head.speaks with
      | true => exact ⟨fun _ => rfl, fun _ => rfl⟩
      | false =>
          constructor
          · intro h
            rw [systemNext, hspeaks] at h
            cases h
          · intro hblocks
            obtain ⟨hopens, hrows⟩ := hblocks b List.mem_cons_self
            have htail := ih.2 (fun c hc => hblocks c (List.mem_cons_of_mem _ hc))
            have htool : b.head.isTool = false := by
              rw [Message.opens] at hopens
              simpa using hopens
            rw [if_neg Bool.false_ne_true, hrows hspeaks, List.nil_append, resultIds,
              List.filter_cons, htool]
            exact htail

/-- Missing results are put at the end of their block, unless a system message
follows. -/
theorem synthesizeMissingToolResults_flat {blocks : List (Block Message)}
    (hblocked : Blocked Message.opens [] blocks)
    (hquiet : ∀ b ∈ blocks, b.head.speaks = false → b.rows = [])
    (hnext : ∀ pre b post, blocks = pre ++ b :: post → b.head.hasToolCalls = true →
      systemNext post = false ∨ missing b = []) :
    synthesizeMissingToolResults (flat blocks) = flat (blocks.map completeBlock) := by
  have hblocks : ∀ b ∈ blocks, b.head.opens = true ∧ (b.head.speaks = false → b.rows = []) :=
    fun b hb => ⟨hblocked.head b hb, hquiet b hb⟩
  rw [← join_regroup, synthesizeMissingToolResults_join (blocked_regroup hblocked.rows)]
  clear hblocked hquiet
  induction blocks with
  | nil => rfl
  | cons b blocks ih =>
      have htail := fun c hc => hblocks c (List.mem_cons_of_mem _ hc)
      have ih := ih (fun pre c post heq => hnext (b :: pre) c post (by rw [heq]; rfl)) htail
      rw [join] at ih
      rw [regroup, List.map_cons, flat_cons]
      cases hspeaks : b.head.speaks with
      | false =>
          have hsame : completeBlock b = b := by
            refine if_neg ?_
            rw [hasToolCalls_of_quiet hspeaks]
            exact Bool.false_ne_true
          rw [if_neg Bool.false_ne_true, hsame, join, List.cons_append, List.append_assoc, ih]
      | true =>
          rw [if_pos rfl, List.map_cons, join, List.nil_append, flat_cons, ← ih]
          cases hcalls : b.head.hasToolCalls with
          | false =>
              have hsame : ∀ rows, completeBlock ⟨b.head, rows⟩ = ⟨b.head, rows⟩ := by
                intro rows
                exact if_neg (by rw [hcalls]; exact Bool.false_ne_true)
              rw [hsame, hsame, List.append_assoc]
          | true =>
              have hfill : ∀ rows, completeBlock ⟨b.head, rows⟩ = ⟨b.head, rows ++
                  placeholders b.head (resultIds rows) b.head.calls⟩ := fun rows => if_pos hcalls
              have hids : resultIds (b.rows ++ (regroup blocks).1) = resultIds b.rows := by
                rw [resultIds, List.filter_append, List.filterMap_append]
                have := regroup_lead.2 htail
                rw [resultIds] at this
                rw [this, List.append_nil]
                rfl
              rw [hfill, hfill, hids]
              rcases hnext [] b blocks rfl hcalls with hend | hnone
              · rw [regroup_lead.1 hend]
                simp
              · rw [show placeholders b.head (resultIds b.rows) b.head.calls = [] from hnone]
                simp

/-! ## Valid transcripts -/

/-- What a provider accepts. -/
structure ProviderValid (messages : List Message) : Prop where
  /-- One result for each call, right behind the assistant. -/
  calls : ∀ before a rest, messages = before ++ a :: rest → a.hasToolCalls = true →
    ((rest.takeWhile Message.isTool).map Message.toolCallId).Perm ((firsts a.callIds).map some)
  /-- No other results. -/
  results : ∀ before m rest, messages = before ++ m :: rest → m.isTool = true →
    ∃ front a block id, before = front ++ a :: block ∧ (∀ r ∈ block, r.isTool = true) ∧
      m.toolCallId = some id ∧ a.declares id = true

/-- The same of a block. -/
structure ValidBlock (b : Block Message) : Prop where
  calls : b.head.hasToolCalls = true →
    (b.rows.map Message.toolCallId).Perm ((firsts b.head.callIds).map some)
  quiet : b.head.hasToolCalls = false → b.rows = []

theorem takeWhile_block {rows : List Message} {blocks : List (Block Message)} (hrows : AreResults rows)
    (hheads : ∀ b ∈ blocks, b.head.opens = true) :
    (rows ++ flat blocks).takeWhile Message.isTool = rows := by
  rw [List.takeWhile_append_of_pos (fun m hm => Message.isTool_of_opens (hrows m hm))]
  cases blocks with
  | nil => simp
  | cons b blocks =>
      have hhead := hheads b List.mem_cons_self
      rw [flat_cons, List.takeWhile_cons_of_neg (by simpa [Message.opens] using hhead),
        List.append_nil]

theorem hasToolCalls_of_declares {m : Message} {id : String} (h : m.declares id = true) :
    m.hasToolCalls = true := by
  cases hcalls : m.hasToolCalls with
  | true => rfl
  | false =>
      rw [Message.declares_eq, declared_eq_nil hcalls] at h
      cases h

theorem providerValid_iff {blocks : List (Block Message)} (h : Blocked Message.opens [] blocks) :
    ProviderValid (flat blocks) ↔ ∀ b ∈ blocks, ValidBlock b := by
  constructor
  · intro hvalid b hb
    obtain ⟨pre, post, rfl⟩ := List.append_of_mem hb
    have hlist : flat (pre ++ b :: post) = flat pre ++ b.head :: (b.rows ++ flat post) := by simp
    have hwhile : (b.rows ++ flat post).takeWhile Message.isTool = b.rows :=
      takeWhile_block (h.rows b hb)
        (fun c hc => h.head c (List.mem_append_right _ (List.mem_cons_of_mem _ hc)))
    constructor
    · intro hcalls
      have := hvalid.calls _ _ _ hlist hcalls
      rwa [hwhile] at this
    · intro hcalls
      cases hrows : b.rows with
      | nil => rfl
      | cons m rows =>
          -- the first result would belong to the row that opens the block
          have hsplit : flat (pre ++ b :: post) =
              (flat pre ++ [b.head]) ++ m :: (rows ++ flat post) := by
            rw [hlist, hrows]
            simp
          have hm : m.isTool = true := by
            refine Message.isTool_of_opens (h.rows b hb m ?_)
            rw [hrows]
            exact List.mem_cons_self
          obtain ⟨front, a, block, id, hbefore, hblock, _, hdeclares⟩ :=
            hvalid.results _ _ _ hsplit hm
          have hopens := h.head b hb
          have hhead : a = b.head := by
            rcases List.eq_nil_or_concat block with rfl | ⟨block, r, rfl⟩
            · exact (List.append_inj' hbefore rfl).2 |> List.singleton_inj.mp |> Eq.symm
            · rw [List.concat_eq_append, ← List.cons_append, ← List.append_assoc] at hbefore
              have hlast := List.singleton_inj.mp (List.append_inj' hbefore rfl).2
              have htool := hblock r (by simp)
              rw [← hlast] at htool
              rw [Message.opens, htool] at hopens
              cases hopens
          rw [hhead] at hdeclares
          rw [hasToolCalls_of_declares hdeclares] at hcalls
          cases hcalls
  · intro hblocks
    constructor
    · intro before a rest hsplit hcalls
      have hopens : a.opens = true := by
        have hrole : a.role = .assistant := by
          rw [Message.hasToolCalls, Bool.and_eq_true, beq_iff_eq] at hcalls
          exact hcalls.1
        rw [Message.opens, Message.isTool, hrole]
        rfl
      obtain ⟨pre, b, post, rfl, hplace⟩ := split_flat hsplit
      have hb : b ∈ pre ++ b :: post := List.mem_append_right _ List.mem_cons_self
      rcases hplace with ⟨rfl, rfl, rfl⟩ | ⟨front, back, hrows, _, _⟩
      · rw [takeWhile_block (h.rows b hb)
          (fun c hc => h.head c (List.mem_append_right _ (List.mem_cons_of_mem _ hc)))]
        exact (hblocks b hb).calls hcalls
      · have hresult := h.rows b hb a (by rw [hrows]; simp)
        rw [hopens] at hresult
        cases hresult
    · intro before m rest hsplit hm
      obtain ⟨pre, b, post, rfl, hplace⟩ := split_flat hsplit
      have hb : b ∈ pre ++ b :: post := List.mem_append_right _ List.mem_cons_self
      rcases hplace with ⟨rfl, _, _⟩ | ⟨front, back, hrows, rfl, _⟩
      · have hopens := h.head b hb
        rw [Message.opens, hm] at hopens
        cases hopens
      · have hmem : m ∈ b.rows := by
          rw [hrows]
          simp
        cases hcalls : b.head.hasToolCalls with
        | false =>
            rw [(hblocks b hb).quiet hcalls] at hmem
            cases hmem
        | true =>
            have hid : m.toolCallId ∈ (firsts b.head.callIds).map some :=
              ((hblocks b hb).calls hcalls).mem_iff.mp (List.mem_map_of_mem hmem)
            obtain ⟨id, hid, hsome⟩ := List.mem_map.mp hid
            refine ⟨flat pre, b.head, front, id, rfl, ?_, hsome.symm, ?_⟩
            · intro r hr
              refine Message.isTool_of_opens (h.rows b hb r ?_)
              rw [hrows]
              exact List.mem_append_left _ hr
            · rw [Message.declares_eq, declared_of_hasToolCalls hcalls, List.contains_iff_mem]
              exact mem_firsts.mp hid

/-! ## When the repair gives a valid transcript -/

/-- No call that is answered behind a row that loses its calls is declared by a row
that keeps them. -/
def StripsCleanly (rows : List Row) : Prop :=
  ∀ s ∈ servedIn rows, s.isComplete rows = false → ∀ x ∈ s.got, x ∉ remainingOf rows

instance (rows : List Row) : Decidable (StripsCleanly rows) :=
  inferInstanceAs (Decidable (∀ s ∈ servedIn rows, s.isComplete rows = false →
    ∀ x ∈ s.got, x ∉ remainingOf rows))

section Valid

variable {rows : List Row} {s : Served} {b : Block Message}

theorem resultIds_results {rows : List Message} (h : AreResults rows) :
    resultIds rows = results rows := by
  rw [resultIds, List.filter_eq_self.mpr (fun m hm => Message.isTool_of_opens (h m hm))]
  rfl

theorem hasToolCalls_iff {m : Message} : m.hasToolCalls = true ↔ m.declared ≠ [] := by
  constructor
  · intro h
    rw [declared_of_hasToolCalls h, Message.callIds]
    rw [Message.hasToolCalls, Bool.and_eq_true] at h
    simpa using h.2
  · intro h
    by_contra hcalls
    exact h (declared_eq_nil (Bool.eq_false_iff.mpr hcalls))

theorem Paired.results_eq (h : Paired rows s b) : results b.rows =
    if s.isComplete rows then s.got else s.got.filter (remainingOf rows).contains :=
  results_owned h.rowIds

/-- The ids of what is missing: the calls without an answer. -/
theorem Paired.missing_ids (h : Paired rows s b) (hrows : AreResults b.rows)
    (hcomplete : s.isComplete rows = true) :
    (missing b).map Message.toolCallId =
      ((firsts b.head.callIds).filter (fun x => !s.got.contains x)).map some := by
  rw [missing, placeholders_ids, resultIds_results hrows, h.results_eq, if_pos hcomplete]
  rfl

theorem Paired.complete_valid (h : Paired rows s b) (hs : s ∈ servedIn rows)
    (hrows : AreResults b.rows) (hcomplete : s.isComplete rows = true) :
    ValidBlock (completeBlock b) := by
  have hdeclared := h.declared
  have hresults := h.rowIds
  rw [if_pos hcomplete] at hdeclared hresults
  have hsub := got_sublist hs
  cases hcalls : b.head.hasToolCalls with
  | true =>
      have hfilled : completeBlock b = ⟨b.head, b.rows ++ missing b⟩ := if_pos hcalls
      rw [hfilled]
      refine ⟨fun _ => ?_, ?_⟩
      swap
      · intro hnone
        rw [hcalls] at hnone
        cases hnone
      have hids : b.head.callIds = s.ids := by rw [← declared_of_hasToolCalls hcalls, hdeclared]
      show ((b.rows ++ missing b).map Message.toolCallId).Perm _
      rw [List.map_append, hresults, h.missing_ids hrows hcomplete, ← List.map_append, hids]
      refine List.Perm.map _ ?_
      have hgot := sublist_eq_filter (nodup_firsts s.ids) hsub
      have hperm := List.filter_append_perm (fun x => decide (x ∈ s.got)) (firsts s.ids)
      rw [← hgot] at hperm
      have hrest : (firsts s.ids).filter (fun x => !s.got.contains x) =
          (firsts s.ids).filter (fun x => !decide (x ∈ s.got)) := by
        refine List.filter_congr ?_
        intro x _
        rw [List.contains_eq_mem]
      rw [hrest]
      exact hperm
  | false =>
      have hsame : completeBlock b = b := if_neg (by rw [hcalls]; exact Bool.false_ne_true)
      have hids : s.ids = [] := by rw [← hdeclared, declared_eq_nil hcalls]
      rw [hids] at hsub
      rw [List.eq_nil_of_sublist_nil hsub] at hresults
      rw [hsame]
      refine ⟨?_, fun _ => List.map_eq_nil_iff.mp hresults⟩
      intro htrue
      rw [hcalls] at htrue
      cases htrue

theorem Paired.stripped_valid (h : Paired rows s b) (hcomplete : s.isComplete rows = false) :
    ValidBlock (completeBlock b) ↔ ∀ x ∈ s.got, x ∉ remainingOf rows := by
  have hdeclared := h.declared
  have hresults := h.rowIds
  rw [if_neg (by rw [hcomplete]; exact Bool.false_ne_true)] at hdeclared hresults
  have hcalls : b.head.hasToolCalls = false := by
    rw [← Bool.not_eq_true, hasToolCalls_iff, hdeclared]
    simp
  have hsame : completeBlock b = b := if_neg (by rw [hcalls]; exact Bool.false_ne_true)
  have hempty : b.rows = [] ↔ ∀ x ∈ s.got, x ∉ remainingOf rows := by
    rw [← List.map_eq_nil_iff (f := Message.toolCallId), hresults, List.map_eq_nil_iff,
      List.filter_eq_nil_iff]
    simp
  rw [hsame, ← hempty]
  refine ⟨fun hvalid => hvalid.quiet hcalls, fun hnil => ⟨?_, fun _ => hnil⟩⟩
  intro htrue
  rw [hcalls] at htrue
  cases htrue

theorem validBlocks_iff {blocks : List (Block Message)}
    (h : List.Forall₂ (Paired rows) (servedIn rows) blocks)
    (hrows : ∀ b ∈ blocks, AreResults b.rows) :
    (∀ b ∈ blocks.map completeBlock, ValidBlock b) ↔ StripsCleanly rows := by
  constructor
  · intro hvalid s hs hcomplete
    obtain ⟨b, hb, hpaired⟩ := forall₂_mem_left h hs
    exact (hpaired.stripped_valid hcomplete).mp (hvalid _ (List.mem_map_of_mem hb))
  · intro hclean c hc
    obtain ⟨b, hb, rfl⟩ := List.mem_map.mp hc
    obtain ⟨s, hs, hpaired⟩ := forall₂_mem_right h hb
    cases hcomplete : s.isComplete rows with
    | true => exact hpaired.complete_valid hs (hrows b hb) hcomplete
    | false => exact (hpaired.stripped_valid hcomplete).mpr (hclean s hs hcomplete)

/-- A system message has no results behind it. -/
theorem Paired.quiet (h : Paired rows s b) (hs : s ∈ servedIn rows) (hspeaks : b.head.speaks = false) :
    b.rows = [] := by
  have hids : s.ids = [] := by
    by_contra hne
    rw [Message.speaks, h.role hne] at hspeaks
    cases hspeaks
  have hsub := got_sublist hs
  rw [hids] at hsub
  have hgot := List.eq_nil_of_sublist_nil hsub
  have hresults := h.rowIds
  rw [hgot, List.filter_nil, ite_self] at hresults
  exact List.map_eq_nil_iff.mp hresults

end Valid

/-! ## The prompt -/

/-- The passes up to the synthesis, as `prepare_conversation_messages` runs them. -/
def repairTranscript (messages : List Message) : List Message :=
  synthesizeMissingToolResults (repairToolPairs (repairMessageOrder
    (normalizeSystemMessages messages)))

/-- A row of the outline of a prompt: notes speak, other system messages are merged
away. -/
def promptRow (m : Message) : Option Row :=
  match m.role with
  | .tool => some (.result m.toolCallId)
  | .assistant => some (.turn m.callIds)
  | .user => some (.turn [])
  | .system => if isNote m then some (.turn []) else none

def promptOutline (messages : List Message) : List Row :=
  messages.filterMap promptRow

theorem outline_merged (rest : List Message) :
    outline ((rest.map noteToUser).filter (fun m => m.role != .system)) = promptOutline rest := by
  induction rest with
  | nil => rfl
  | cons m rest ih =>
      rw [List.map_cons, List.filter_cons, promptOutline, List.filterMap_cons]
      have hother : m.role ≠ .system → noteToUser m = m := fun hrole => if_neg (fun h => hrole h.1)
      cases hrole : m.role with
      | system =>
          cases hnote : isNote m with
          | true =>
              have huser : noteToUser m =
                  { m with role := .user, content := "[System note] " ++ m.content } :=
                if_pos ⟨hrole, hnote⟩
              have hrow : promptRow m = some (.turn []) := by
                rw [promptRow, hrole]
                exact if_pos hnote
              rw [huser, hrow]
              exact congrArg (Row.turn [] :: ·) ih
          | false =>
              have hsame : noteToUser m = m := if_neg (by rw [hnote]; exact nofun)
              have hrow : promptRow m = none := by
                rw [promptRow, hrole]
                exact if_neg (by rw [hnote]; exact Bool.false_ne_true)
              rw [hsame, hrole, if_neg (by decide), hrow]
              exact ih
      | _ =>
          have hrow : promptRow m = some (rowOf m) := by
            rw [promptRow, rowOf, hrole]
          rw [hother (by rw [hrole]; decide), hrole, if_pos (by decide), hrow, outline, List.map_cons]
          exact congrArg (rowOf m :: ·) ih

theorem servedIn_idle {rows : List Row} :
    (∃ flag, servedIn (.system :: rows) = ⟨[], [], flag⟩ :: servedIn rows) ∧
      ∃ flag, servedIn (.turn [] :: rows) = ⟨[], [], flag⟩ :: servedIn rows := by
  refine ⟨⟨_, rfl⟩, beforeSystem rows, ?_⟩
  have hkeep : (strays [] rows).filter (fun x => !([] : List String).contains x) = strays [] rows := by
    rw [List.filter_eq_self]
    intro x _
    rfl
  rw [servedIn, strays, served, hkeep]
  rfl

theorem stripsCleanly_idle {rows rows' : List Row} {flag : Bool}
    (hserved : servedIn rows' = ⟨[], [], flag⟩ :: servedIn rows)
    (houtcomes : outcomes rows' = outcomes rows) : StripsCleanly rows' ↔ StripsCleanly rows := by
  have hcomplete : Served.isComplete rows' = Served.isComplete rows := by
    funext s
    rw [Served.isComplete, Served.isComplete, houtcomes]
  have hremaining : remainingOf rows' = remainingOf rows := by
    rw [remainingOf, hserved, hcomplete, List.filter_cons]
    rfl
  rw [StripsCleanly, StripsCleanly, hserved, hremaining, hcomplete]
  constructor
  · intro h s hs
    exact h s (List.mem_cons_of_mem _ hs)
  · intro h s hs
    rcases List.mem_cons.mp hs with rfl | hs
    · intro _ x hx
      cases hx
    · exact h s hs

/-- Merging the system messages does not touch the outline. -/
theorem stripsCleanly_normalized (messages : List Message) :
    StripsCleanly (outline (normalizeSystemMessages messages)) ↔
      StripsCleanly (promptOutline messages) := by
  cases messages with
  | nil => rfl
  | cons first rest =>
      have houtline : outline (normalizeSystemMessages (first :: rest)) =
          rowOf first :: promptOutline rest := by
        rw [← outline_merged]
        rfl
      have hprompted : promptOutline (first :: rest) =
          (promptRow first).toList ++ promptOutline rest := by
        rw [promptOutline, List.filterMap_cons]
        cases promptRow first <;> rfl
      rw [houtline, hprompted]
      cases hrole : first.role with
      | system =>
          have hrow : rowOf first = .system := by rw [rowOf, hrole]
          obtain ⟨⟨flag, hsystem⟩, flag', hturn⟩ := @servedIn_idle (promptOutline rest)
          rw [hrow, stripsCleanly_idle hsystem rfl]
          cases hnote : isNote first with
          | true =>
              have hprompt : promptRow first = some (.turn []) := by
                rw [promptRow, hrole]
                exact if_pos hnote
              rw [hprompt]
              exact (stripsCleanly_idle hturn rfl).symm
          | false =>
              have hprompt : promptRow first = none := by
                rw [promptRow, hrole]
                exact if_neg (by rw [hnote]; exact Bool.false_ne_true)
              rw [hprompt]
              rfl
      | _ =>
          have hprompt : promptRow first = some (rowOf first) := by
            rw [promptRow, rowOf, hrole]
          rw [hprompt]
          rfl

/-- Behind its first row, a prompt has no system message. -/
theorem normalizeSystemMessages_tail {messages : List Message} {m : Message}
    (h : m ∈ (normalizeSystemMessages messages).tail) : m.role ≠ .system := by
  cases messages with
  | nil => cases h
  | cons first rest => simpa using (List.mem_filter.mp h).2

theorem speaks_of_opens {m : Message} (hopens : m.opens = true) (hrole : m.role ≠ .system) :
    m.speaks = true := by
  cases h : m.role with
  | system => exact absurd h hrole
  | tool =>
      rw [Message.opens, Message.isTool, h] at hopens
      cases hopens
  | _ => rw [Message.speaks, h]; rfl

/-- **What the repair achieves.**  The prompt is valid exactly if no result of a row
that loses its calls has an id that a row keeps. -/
theorem repair_valid_iff (messages : List Message) :
    ProviderValid (repairTranscript messages) ↔ StripsCleanly (promptOutline messages) := by
  obtain ⟨lead, blocks, hblocked, hjoin⟩ :=
    exists_blocks Message.opens (normalizeSystemMessages messages)
  obtain ⟨blocks₂, hpass, hblocked₂, hroles, hpaired⟩ := repairToolPairs_paired hblocked rfl
  have hquiet : ∀ b ∈ blocks₂, b.head.speaks = false → b.rows = [] := by
    intro b hb hspeaks
    obtain ⟨s, hs, hpair⟩ := forall₂_mem_right hpaired hb
    exact hpair.quiet hs hspeaks
  -- only the first row of a prompt can be a system message
  have htail : ∀ r ∈ (blocks₂.map (fun b => b.head.role)).tail, r ≠ MessageRole.system := by
    rw [hroles]
    intro r hr
    cases blocks with
    | nil => cases hr
    | cons c blocks =>
        obtain ⟨b, hb, rfl⟩ := List.mem_map.mp hr
        refine @normalizeSystemMessages_tail messages b.head ?_
        have hmem : b.head ∈ flat blocks := mem_flat.mpr ⟨b, hb, Or.inl rfl⟩
        rw [hjoin, join]
        cases lead with
        | nil => exact List.mem_append_right _ hmem
        | cons x lead =>
            exact List.mem_append_right _ (List.mem_cons_of_mem _ (List.mem_append_right _ hmem))
  have hnext : ∀ pre b post, blocks₂ = pre ++ b :: post → b.head.hasToolCalls = true →
      systemNext post = false ∨ missing b = [] := by
    intro pre b post heq _
    refine Or.inl ?_
    cases post with
    | nil => rfl
    | cons c post =>
        have hc : c ∈ blocks₂ := by
          rw [heq]
          simp
        have hrole : c.head.role ≠ .system := by
          refine htail _ ?_
          rw [heq]
          cases pre <;> simp
        rw [systemNext, speaks_of_opens (hblocked₂.head c hc) hrole]
        rfl
  have hfinal : repairTranscript messages = flat (blocks₂.map completeBlock) := by
    rw [repairTranscript, hjoin, hpass]
    exact synthesizeMissingToolResults_flat hblocked₂ hquiet hnext
  have hblocked₃ : Blocked Message.opens [] (blocks₂.map completeBlock) := by
    refine ⟨List.forall_mem_nil _, ?_, ?_⟩
    · intro c hc
      obtain ⟨b, hb, rfl⟩ := List.mem_map.mp hc
      rw [completeBlock_head]
      exact hblocked₂.head b hb
    · intro c hc
      obtain ⟨b, hb, rfl⟩ := List.mem_map.mp hc
      exact areResults_complete (hblocked₂.rows b hb)
  rw [hfinal, providerValid_iff hblocked₃, validBlocks_iff hpaired hblocked₂.rows, ← hjoin]
  exact stripsCleanly_normalized messages

/-- Two assistants reuse an id, and the first has a call without a result. -/
def reusedId : List Message :=
  [{ role := .user, content := "go", timestamp := 0 },
   { role := .assistant, content := "", toolCalls := some [⟨"x", "read", "{}", none⟩,
      ⟨"y", "write", "{}", none⟩], timestamp := 1 },
   { role := .tool, content := "one", toolCallId := some "x", timestamp := 2 },
   { role := .user, content := "again", timestamp := 3 },
   { role := .assistant, content := "", toolCalls := some [⟨"x", "read", "{}", none⟩],
      timestamp := 4 },
   { role := .tool, content := "two", toolCallId := some "x", timestamp := 5 }]

/-- **The result of the first stays behind an assistant without calls.** -/
theorem stripped_result_stays : ¬ ProviderValid (repairTranscript reusedId) := by
  intro hvalid
  have hquiet : ∀ a ∈ (repairTranscript reusedId).take 2, a.hasToolCalls = false := by
    decide
  have hsplit : repairTranscript reusedId = (repairTranscript reusedId).take 2 ++
      { role := .tool, content := "one", toolCallId := some "x", timestamp := 2 } ::
        (repairTranscript reusedId).drop 3 := by
    rfl
  obtain ⟨front, a, block, id, hbefore, _, _, hdeclares⟩ := hvalid.results _ _ _ hsplit rfl
  have ha : a ∈ (repairTranscript reusedId).take 2 := by
    rw [hbefore]
    simp
  have hcalls := hquiet a ha
  rw [hasToolCalls_of_declares hdeclares] at hcalls
  cases hcalls

end Octos.Agent
