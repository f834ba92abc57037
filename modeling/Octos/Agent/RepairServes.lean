/-
# `Octos.Agent.RepairServes` — who gets which result

The pass over the order serves the assistants one after the other.  An assistant
gets the results of its own block, and those that are nobody's: a result whose
block is not opened by a row that declares it goes to the first assistant that
does.

    avail                the ids of results that are nobody's
    Filed avail b b'     the block `b` has become `b'`
    Serves avail         all blocks in turn; what one declares is gone for the next
-/
import Octos.Agent.RepairOrder

namespace Octos.Agent

open Block

/-- The ids of some results. -/
def results (rows : List Message) : List String :=
  rows.filterMap Message.toolCallId

@[simp] theorem results_append (a b : List Message) : results (a ++ b) = results a ++ results b :=
  List.filterMap_append

theorem mem_results {rows : List Message} {x : String} :
    x ∈ results rows ↔ ∃ m ∈ rows, m.toolCallId = some x :=
  List.mem_filterMap

def declaredIn (blocks : List (Block Message)) : List String :=
  blocks.flatMap (fun b => b.head.declared)

@[simp] theorem declaredIn_trim (ids : List String) (blocks : List (Block Message)) :
    declaredIn (trimBlocks ids blocks) = declaredIn blocks := by
  rw [declaredIn, trimBlocks, List.flatMap_map]
  rfl

@[simp] theorem declaredIn_cons (b : Block Message) (blocks : List (Block Message)) :
    declaredIn (b :: blocks) = b.head.declared ++ declaredIn blocks := rfl

/-- The ids of the results that are nobody's. -/
def StrayIn (lead : List Message) (blocks : List (Block Message)) (x : String) : Prop :=
  x ∈ results lead ∨ ∃ b ∈ blocks, x ∈ results b.rows ∧ x ∉ b.head.declared

/-! ## Rows that stay and rows that go -/

theorem stray_some {ids declared : List String} {m : Message} {x : String}
    (h : m.toolCallId = some x) :
    stray ids declared m = true ↔ x ∈ ids ∧ x ∉ declared := by
  rw [stray, h]
  simp

theorem mem_results_kept {ids declared : List String} {rows : List Message} {x : String} :
    x ∈ results (keptRows ids declared rows) ↔
      x ∈ results rows ∧ ¬ (x ∈ ids ∧ x ∉ declared) := by
  rw [mem_results, mem_results]
  constructor
  · rintro ⟨m, hm, hid⟩
    obtain ⟨hmem, hkept⟩ := List.mem_filter.mp hm
    refine ⟨⟨m, hmem, hid⟩, ?_⟩
    rw [← stray_some hid]
    simpa using hkept
  · rintro ⟨⟨m, hm, hid⟩, hkept⟩
    refine ⟨m, List.mem_filter.mpr ⟨hm, ?_⟩, hid⟩
    rw [← stray_some hid] at hkept
    simpa using hkept

theorem mem_results_taken {ids declared : List String} {rows : List Message} {x : String} :
    x ∈ results (takenRows ids declared rows) ↔ x ∈ results rows ∧ x ∈ ids ∧ x ∉ declared := by
  rw [mem_results, mem_results]
  constructor
  · rintro ⟨m, hm, hid⟩
    obtain ⟨hmem, htaken⟩ := List.mem_filter.mp hm
    exact ⟨⟨m, hmem, hid⟩, (stray_some hid).mp htaken⟩
  · rintro ⟨⟨m, hm, hid⟩, htaken⟩
    exact ⟨m, List.mem_filter.mpr ⟨hm, (stray_some hid).mpr htaken⟩, hid⟩

theorem mem_results_takenBlocks {ids : List String} {blocks : List (Block Message)} {x : String} :
    x ∈ results (takenBlocks ids blocks) ↔
      x ∈ ids ∧ ∃ b ∈ blocks, x ∈ results b.rows ∧ x ∉ b.head.declared := by
  rw [results, takenBlocks, List.filterMap_flatMap, List.mem_flatMap]
  constructor
  · rintro ⟨b, hb, hx⟩
    obtain ⟨hrows, hids, hdeclared⟩ := mem_results_taken.mp hx
    exact ⟨hids, b, hb, hrows, hdeclared⟩
  · rintro ⟨hids, b, hb, hrows, hdeclared⟩
    exact ⟨b, hb, mem_results_taken.mpr ⟨hrows, hids, hdeclared⟩⟩

theorem stray_append {ids ids' declared : List String} {m : Message} :
    stray (ids ++ ids') declared m = (stray ids declared m || stray ids' declared m) := by
  cases hid : m.toolCallId with
  | none =>
      rw [stray, stray, stray, hid]
      rfl
  | some x =>
      rw [Bool.eq_iff_iff, Bool.or_eq_true, stray_some hid, stray_some hid, stray_some hid,
        List.mem_append]
      tauto

theorem keptRows_kept {ids ids' declared : List String} {rows : List Message} :
    keptRows ids' declared (keptRows ids declared rows) = keptRows (ids ++ ids') declared rows := by
  rw [keptRows, keptRows, keptRows, List.filter_filter]
  refine List.filter_congr ?_
  intro m _
  rw [stray_append, Bool.not_or, Bool.and_comm]

theorem trimBlocks_trim {ids ids' : List String} {blocks : List (Block Message)} :
    trimBlocks ids' (trimBlocks ids blocks) = trimBlocks (ids ++ ids') blocks := by
  rw [trimBlocks, trimBlocks, trimBlocks, List.map_map]
  refine List.map_congr_left ?_
  intro b _
  show Block.mk b.head (keptRows ids' b.head.declared (keptRows ids b.head.declared b.rows)) = _
  rw [keptRows_kept]
  rfl

/-- Nothing is looked for: nothing goes. -/
theorem keptRows_none {declared : List String} {rows : List Message} :
    keptRows [] declared rows = rows := by
  rw [keptRows, List.filter_eq_self]
  intro m _
  cases hid : m.toolCallId with
  | none =>
      rw [stray, hid]
      rfl
  | some x => simp [stray, hid]

theorem trimBlocks_none {blocks : List (Block Message)} : trimBlocks [] blocks = blocks := by
  rw [trimBlocks]
  conv => rhs; rw [← List.map_id blocks]
  refine List.map_congr_left ?_
  intro b _
  show Block.mk b.head (keptRows [] b.head.declared b.rows) = b
  rw [keptRows_none]

/-! ## What is put back -/

theorem isSome_collect {rows : List Message} : ∀ {collected : Table String Message} {x : String},
    (collect collected rows)[x]?.isSome = true ↔ collected[x]?.isSome = true ∨ x ∈ results rows := by
  induction rows with
  | nil => intro collected x; simp [collect, results]
  | cons row rows ih =>
      intro collected x
      show (collect (row.toolCallId.elim collected (fun id => collected.insert id row))
        rows)[x]?.isSome = true ↔ _
      rw [ih]
      cases hrow : row.toolCallId with
      | none => simp [results, hrow]
      | some key =>
          have hinsert : (collected.insert key row)[x]?.isSome = true ↔
              x = key ∨ collected[x]?.isSome = true := by
            rw [Table.get_insert]
            split
            · next heq => simp [heq]
            · next hne => simp [Ne.symm hne]
          show (collected.insert key row)[x]?.isSome = true ∨ _ ↔ _
          rw [hinsert]
          have hresults : x ∈ results (row :: rows) ↔ x = key ∨ x ∈ results rows := by
            simp [results, hrow]
          rw [hresults]
          tauto

/-- The ids of what is put back: those of the calls that were collected. -/
theorem reinsert_ids : ∀ {ids : List String} {collected : Table String Message},
    (∀ (x : String) (m : Message), collected[x]? = some m → m.toolCallId = some x) →
    (reinsert collected ids).map Message.toolCallId =
      ((firsts ids).filter (fun x => collected[x]?.isSome)).map some := by
  intro ids
  induction ids with
  | nil => intro collected _; rfl
  | cons id ids ih =>
      intro collected hown
      rw [reinsert, firsts]
      split
      · next m hm =>
          have hown' : ∀ (x : String) (m : Message), (collected.erase id)[x]? = some m →
              m.toolCallId = some x := by
            intro x row hx
            rw [Table.get_erase] at hx
            split at hx
            · cases hx
            · exact hown x row hx
          rw [List.map_cons, ih hown', List.filter_cons, if_pos (by rw [hm]; rfl), List.map_cons,
            hown id m hm, List.filter_filter]
          congr 2
          refine List.filter_congr ?_
          intro x _
          rw [Table.get_erase]
          split
          · next heq => simp [heq]
          · next hne => simp [Ne.symm hne]
      · next hnone =>
          rw [ih hown, List.filter_cons, if_neg (by rw [hnone]; simp), List.filter_filter]
          congr 1
          refine List.filter_congr ?_
          intro x _
          by_cases hx : x = id
          · simp [hx, hnone]
          · simp [hx]

/-! ## The assistants in turn -/

/-- `got` are the calls that are answered, in their order. -/
structure Answered (avail : String → Prop) (b : Block Message) (got : List String) : Prop where
  calls : got.Sublist (firsts b.head.declared)
  iff : ∀ x, x ∈ got ↔ x ∈ b.head.declared ∧ (x ∈ results b.rows ∨ avail x)

/-- A block after its turn: the results of its calls in front, and behind them
results that nobody declares. -/
structure Filed (avail : String → Prop) (all : List String) (b b' : Block Message) : Prop where
  head : b'.head = b.head
  rows : ∃ owned loose got, b'.rows = owned ++ loose ∧ Answered avail b got ∧
    owned.map Message.toolCallId = got.map some ∧ ∀ x ∈ results loose, x ∉ all

inductive Serves (all : List String) :
    (String → Prop) → List (Block Message) → List (Block Message) → Prop
  | nil {avail : String → Prop} : Serves all avail [] []
  | cons {avail : String → Prop} {b b' : Block Message} {blocks blocks' : List (Block Message)} :
      Filed avail all b b' →
      Serves all (fun x => avail x ∧ x ∉ b.head.declared) blocks blocks' →
      Serves all avail (b :: blocks) (b' :: blocks')

theorem declared_of_hasToolCalls {m : Message} (h : m.hasToolCalls = true) :
    m.declared = m.callIds := by
  rw [Message.hasToolCalls, Bool.and_eq_true, beq_iff_eq] at h
  exact if_pos h.1

theorem declared_eq_nil {m : Message} (h : m.hasToolCalls = false) : m.declared = [] := by
  rw [Message.declared]
  split
  · next hrole =>
      have hcalls : m.calls = [] := by
        simpa [Message.hasToolCalls, hrole] using h
      rw [Message.callIds, hcalls]
      rfl
  · rfl

section Turn

variable {lead : List Message} {done todo : List (Block Message)} {b : Block Message}

/-- The results of an assistant's turn. -/
def filledRows (lead : List Message) (done : List (Block Message)) (b : Block Message)
    (todo : List (Block Message)) : List Message :=
  reinsert (collect ∅ (taken b.head.callIds lead done b.rows todo)) b.head.callIds

theorem mem_results_taken_iff {x : String} (hdeclared : b.head.declared = b.head.callIds)
    (hx : x ∈ b.head.callIds) :
    x ∈ results (taken b.head.callIds lead done b.rows todo) ↔
      x ∈ results b.rows ∨ StrayIn lead (done ++ b :: todo) x := by
  simp only [taken, results_append, List.mem_append, mem_results_taken, mem_results_takenBlocks,
    StrayIn, List.mem_cons]
  constructor
  · rintro (⟨hlead, _⟩ | ⟨_, c, hc, hrows⟩ | ⟨hrows, _⟩ | ⟨_, c, hc, hrows⟩)
    · exact Or.inr (Or.inl hlead)
    · exact Or.inr (Or.inr ⟨c, Or.inl hc, hrows⟩)
    · exact Or.inl hrows
    · exact Or.inr (Or.inr ⟨c, Or.inr (Or.inr hc), hrows⟩)
  · rintro (hrows | hlead | ⟨c, hc | rfl | hc, hrows⟩)
    · exact Or.inr (Or.inr (Or.inl ⟨hrows, hx, List.not_mem_nil⟩))
    · exact Or.inl ⟨hlead, hx, List.not_mem_nil⟩
    · exact Or.inr (Or.inl ⟨hx, c, hc, hrows⟩)
    · rw [hdeclared] at hrows
      exact absurd hx hrows.2
    · exact Or.inr (Or.inr (Or.inr ⟨hx, c, hc, hrows⟩))

/-- The calls that are answered in an assistant's turn. -/
theorem filledRows_answered (hcalls : b.head.hasToolCalls = true) :
    ∃ got, Answered (StrayIn lead (done ++ b :: todo)) b got ∧
      (filledRows lead done b todo).map Message.toolCallId = got.map some := by
  have hdeclared := declared_of_hasToolCalls hcalls
  have hown : ∀ (x : String) (m : Message),
      (collect ∅ (taken b.head.callIds lead done b.rows todo))[x]? = some m →
      m.toolCallId = some x := by
    intro x m hx
    rcases get_collect hx with hnone | ⟨_, hid⟩
    · rw [Std.ExtTreeMap.getElem?_empty] at hnone
      cases hnone
    · exact hid
  refine ⟨_, ⟨?_, ?_⟩, reinsert_ids hown⟩
  · rw [hdeclared]
    exact List.filter_sublist
  · intro x
    rw [List.mem_filter, mem_firsts, isSome_collect, Std.ExtTreeMap.getElem?_empty, hdeclared]
    constructor
    · rintro ⟨hx, hnone | htaken⟩
      · cases hnone
      · exact ⟨hx, (mem_results_taken_iff hdeclared hx).mp htaken⟩
    · rintro ⟨hx, havail⟩
      exact ⟨hx, Or.inr ((mem_results_taken_iff hdeclared hx).mpr havail)⟩

/-- What an assistant puts in front of its block, it declares. -/
theorem filledRows_declared (hcalls : b.head.hasToolCalls = true) {x : String}
    (hx : x ∈ results (filledRows lead done b todo)) : x ∈ b.head.declared := by
  obtain ⟨m, hm, hid⟩ := mem_results.mp hx
  obtain ⟨_, y, hy, hrow⟩ := mem_reinsert_collect hm
  rw [declared_of_hasToolCalls hcalls]
  rw [hid] at hrow
  rw [Option.some.inj hrow]
  exact hy

theorem keptRows_declared {ids declared : List String} {rows : List Message}
    (h : ∀ x ∈ results rows, x ∈ declared) : keptRows ids declared rows = rows := by
  rw [keptRows, List.filter_eq_self]
  intro m hm
  cases hid : m.toolCallId with
  | none =>
      rw [stray, hid]
      rfl
  | some x =>
      have hx := h x (mem_results.mpr ⟨m, hm, hid⟩)
      rw [Bool.not_eq_true', ← Bool.not_eq_true, stray_some hid]
      exact fun hstray => hstray.2 hx

theorem strayIn_trim {ids : List String} {blocks : List (Block Message)} {x : String} :
    StrayIn (keptRows ids [] lead) (trimBlocks ids blocks) x ↔ StrayIn lead blocks x ∧ x ∉ ids := by
  constructor
  · rintro (hlead | ⟨c, hc, hrows, hdeclared⟩)
    · obtain ⟨hlead, hkept⟩ := mem_results_kept.mp hlead
      exact ⟨Or.inl hlead, fun hx => hkept ⟨hx, List.not_mem_nil⟩⟩
    · obtain ⟨c, hmem, rfl⟩ := List.mem_map.mp hc
      obtain ⟨hrows, hkept⟩ := mem_results_kept.mp hrows
      exact ⟨Or.inr ⟨c, hmem, hrows, hdeclared⟩, fun hx => hkept ⟨hx, hdeclared⟩⟩
  · rintro ⟨hlead | ⟨c, hc, hrows, hdeclared⟩, hx⟩
    · exact Or.inl (mem_results_kept.mpr ⟨hlead, fun h => hx h.1⟩)
    · exact Or.inr ⟨trimBlock ids c, List.mem_map_of_mem hc,
        mem_results_kept.mpr ⟨hrows, fun h => hx h.1⟩, hdeclared⟩

theorem strayIn_append {blocks blocks' : List (Block Message)} {x : String} :
    StrayIn lead (blocks ++ blocks') x ↔ StrayIn lead blocks x ∨ StrayIn [] blocks' x := by
  simp only [StrayIn, List.mem_append, results, List.filterMap_nil, List.not_mem_nil, false_or]
  constructor
  · rintro (h | ⟨c, hc | hc, h⟩)
    · exact Or.inl (Or.inl h)
    · exact Or.inl (Or.inr ⟨c, hc, h⟩)
    · exact Or.inr ⟨c, hc, h⟩
  · rintro ((h | ⟨c, hc, h⟩) | ⟨c, hc, h⟩)
    · exact Or.inl h
    · exact Or.inr ⟨c, Or.inl hc, h⟩
    · exact Or.inr ⟨c, Or.inr hc, h⟩

/-- After its turn, nothing that an assistant declares is nobody's. -/
theorem strayIn_fill {x : String} (hcalls : b.head.hasToolCalls = true) :
    StrayIn (keptRows b.head.callIds [] lead)
        ((trimBlocks b.head.callIds done ++ [filledBlock lead done b todo]) ++
          trimBlocks b.head.callIds todo) x ↔
      StrayIn lead (done ++ b :: todo) x ∧ x ∉ b.head.declared := by
  have hdeclared := declared_of_hasToolCalls hcalls
  have hblock : StrayIn [] [filledBlock lead done b todo] x ↔
      StrayIn [] [b] x ∧ x ∉ b.head.callIds := by
    simp only [StrayIn, results, List.filterMap_nil, List.not_mem_nil, false_or,
      List.mem_singleton, exists_eq_left]
    show x ∈ results (filledRows lead done b todo ++ keptRows b.head.callIds [] b.rows) ∧ _ ↔ _
    rw [results_append, List.mem_append, mem_results_kept]
    constructor
    · rintro ⟨hown | ⟨hrows, hkept⟩, hnot⟩
      · exact absurd (filledRows_declared hcalls hown) hnot
      · exact ⟨⟨hrows, hnot⟩, fun hx => hkept ⟨hx, List.not_mem_nil⟩⟩
    · rintro ⟨⟨hrows, hnot⟩, hx⟩
      exact ⟨Or.inr ⟨hrows, fun h => hx h.1⟩, hnot⟩
  have htodo : StrayIn [] (trimBlocks b.head.callIds todo) x ↔
      StrayIn [] todo x ∧ x ∉ b.head.callIds := @strayIn_trim [] _ _ _
  have hsplit : StrayIn lead (done ++ b :: todo) x ↔
      StrayIn lead done x ∨ StrayIn [] [b] x ∨ StrayIn [] todo x := by
    rw [strayIn_append, show b :: todo = [b] ++ todo from rfl, strayIn_append]
  rw [strayIn_append, strayIn_append, strayIn_trim, hblock, htodo, hsplit, hdeclared]
  tauto

end Turn

/-- Rows that go from a block are not answers to its own calls. -/
theorem Filed.of_trim {avail : String → Prop} {all ids : List String} {b b' : Block Message}
    (h : Filed avail all (trimBlock ids b) b') : Filed avail all b b' := by
  obtain ⟨owned, loose, got, hrows, hanswered, hids, hloose⟩ := h.rows
  refine ⟨h.head, owned, loose, got, hrows, ⟨hanswered.calls, ?_⟩, hids, hloose⟩
  intro x
  rw [hanswered.iff]
  show x ∈ b.head.declared ∧ (x ∈ results (keptRows ids b.head.declared b.rows) ∨ avail x) ↔ _
  rw [mem_results_kept]
  tauto

theorem Serves.of_trim {all ids : List String} : ∀ {blocks blocks' : List (Block Message)}
    {avail : String → Prop}, Serves all avail (trimBlocks ids blocks) blocks' →
    Serves all avail blocks blocks' := by
  intro blocks
  induction blocks with
  | nil =>
      intro blocks' avail h
      exact h
  | cons b blocks ih =>
      intro blocks' avail h
      cases h with
      | cons hfiled hrest => exact .cons hfiled.of_trim (ih hrest)

theorem Serves.heads {all : List String} {avail : String → Prop}
    {blocks blocks' : List (Block Message)} (h : Serves all avail blocks blocks') :
    blocks'.map Block.head = blocks.map Block.head := by
  induction h with
  | nil => rfl
  | cons hfiled _ ih => rw [List.map_cons, List.map_cons, hfiled.head, ih]

/-- **Who gets which result.** -/
theorem Orders.serves {all : List String} {lead lead' : List Message}
    {done todo blocks : List (Block Message)} (h : Orders lead done todo lead' blocks) :
    (∀ x, StrayIn lead (done ++ todo) x → x ∉ declaredIn todo → x ∉ all) →
    lead' = keptRows (declaredIn todo) [] lead ∧
      ∃ todo', blocks = trimBlocks (declaredIn todo) done ++ todo' ∧
        Serves all (StrayIn lead (done ++ todo)) todo todo' := by
  induction h with
  | finish =>
      intro _
      refine ⟨keptRows_none.symm, [], ?_, .nil⟩
      rw [List.append_nil]
      exact trimBlocks_none.symm
  | @skip lead lead' done todo blocks b hcalls _ ih =>
      intro hall
      have hnone := declared_eq_nil hcalls
      have hlist : (done ++ [b]) ++ todo = done ++ b :: todo := by simp
      have hdeclared : declaredIn (b :: todo) = declaredIn todo := by
        rw [declaredIn_cons, hnone, List.nil_append]
      rw [hlist] at ih
      rw [hdeclared] at hall ⊢
      obtain ⟨hlead, todo', hblocks, hserves⟩ := ih hall
      refine ⟨hlead, trimBlock (declaredIn todo) b :: todo', ?_, .cons ⟨rfl, ?_⟩ ?_⟩
      · rw [hblocks]
        simp [trimBlocks]
      · refine ⟨[], keptRows (declaredIn todo) b.head.declared b.rows, [], rfl, ⟨?_, ?_⟩, rfl, ?_⟩
        · exact List.nil_sublist _
        · intro x
          rw [hnone]
          simp
        · intro x hx
          obtain ⟨hrows, hkept⟩ := mem_results_kept.mp hx
          have hnot : x ∉ b.head.declared := by
            rw [hnone]
            exact List.not_mem_nil
          refine hall x (Or.inr ⟨b, List.mem_append_right _ List.mem_cons_self, hrows, hnot⟩) ?_
          exact fun hx => hkept ⟨hx, hnot⟩
      · have havail : (fun x => StrayIn lead (done ++ b :: todo) x ∧ x ∉ b.head.declared) =
            StrayIn lead (done ++ b :: todo) := by
          funext x
          rw [hnone]
          simp
        rw [havail]
        exact hserves
  | @fill lead lead' done todo blocks b hcalls _ ih =>
      intro hall
      have hdeclared := declared_of_hasToolCalls hcalls
      have hstray : StrayIn (keptRows b.head.callIds [] lead)
          ((trimBlocks b.head.callIds done ++ [filledBlock lead done b todo]) ++
            trimBlocks b.head.callIds todo) =
          fun x => StrayIn lead (done ++ b :: todo) x ∧ x ∉ b.head.declared := by
        funext x
        exact propext (strayIn_fill hcalls)
      rw [hstray, declaredIn_trim] at ih
      have hnext : ∀ x, StrayIn lead (done ++ b :: todo) x ∧ x ∉ b.head.declared →
          x ∉ declaredIn todo → x ∉ all := by
        rintro x ⟨hx, hnot⟩ htodo
        refine hall x hx ?_
        rw [declaredIn_cons, List.mem_append, not_or]
        exact ⟨hnot, htodo⟩
      obtain ⟨hlead, todo', hblocks, hserves⟩ := ih hnext
      rw [keptRows_kept, ← hdeclared] at hlead
      refine ⟨hlead, trimBlock (declaredIn todo) (filledBlock lead done b todo) :: todo', ?_,
        .cons ⟨rfl, ?_⟩ hserves.of_trim⟩
      · rw [hblocks, declaredIn_cons, ← trimBlocks_trim, ← hdeclared]
        simp [trimBlocks]
      · obtain ⟨got, hanswered, hids⟩ := filledRows_answered hcalls
        refine ⟨filledRows lead done b todo,
          keptRows (declaredIn todo) b.head.declared (keptRows b.head.callIds [] b.rows), got, ?_,
          hanswered, hids, ?_⟩
        · show keptRows (declaredIn todo) b.head.declared
            (filledRows lead done b todo ++ keptRows b.head.callIds [] b.rows) = _
          rw [keptRows, List.filter_append]
          congr 1
          exact keptRows_declared (fun x hx => filledRows_declared hcalls hx)
        · intro x hx
          obtain ⟨hrows, hkept⟩ := mem_results_kept.mp hx
          obtain ⟨hrows, hown⟩ := mem_results_kept.mp hrows
          have hnot : x ∉ b.head.declared := by
            rw [hdeclared]
            exact fun hx => hown ⟨hx, List.not_mem_nil⟩
          refine hnext x ⟨?_, hnot⟩ (fun hx => hkept ⟨hx, hnot⟩)
          exact Or.inr ⟨b, List.mem_append_right _ List.mem_cons_self, hrows, hnot⟩

end Octos.Agent
