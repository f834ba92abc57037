/-
# `Octos.Agent.RepairOutline` — a transcript without its contents

What the repair does to the pairs of calls and results can be read off an outline
of the transcript: which ids a row declares, which id a result has.  `served` says
which calls of each row are answered once the results are gathered, and `Files`
that the blocks of the gathered transcript are as it says.
-/
import Octos.Agent.RepairServes

namespace Octos.Agent

open Block

/-! ## Outlines -/

inductive Row
  | turn (ids : List String)
  | system
  | result (id : Option String)
  deriving DecidableEq

/-- The results up to the next row of another kind. -/
def answers : List Row → List String
  | .result id :: rest => id.toList ++ answers rest
  | _ => []

/-- The results that are not declared by the row before them. -/
def strays : List String → List Row → List String
  | _, [] => []
  | declared, .result id :: rest =>
      id.toList.filter (fun x => !declared.contains x) ++ strays declared rest
  | _, .turn ids :: rest => strays ids rest
  | _, .system :: rest => strays [] rest

/-- The next row that is no result is a system message. -/
def beforeSystem : List Row → Bool
  | .result _ :: rest => beforeSystem rest
  | .system :: _ => true
  | _ => false

/-- A row that declares calls, and those that are answered. -/
structure Served where
  ids : List String
  got : List String
  beforeSystem : Bool
  deriving DecidableEq

/-- The rows in turn; `avail` are the results that nobody has. -/
def served : List String → List Row → List Served
  | _, [] => []
  | avail, .result _ :: rest => served avail rest
  | avail, .system :: rest => ⟨[], [], beforeSystem rest⟩ :: served avail rest
  | avail, .turn ids :: rest =>
      ⟨ids, (firsts ids).filter (fun x => (answers rest).contains x || avail.contains x),
        beforeSystem rest⟩ :: served (avail.filter (fun x => !ids.contains x)) rest

/-- The ids of all results. -/
def outcomes (rows : List Row) : List String :=
  rows.flatMap (fun
    | .result id => id.toList
    | _ => [])

/-- The whole transcript. -/
def servedIn (rows : List Row) : List Served :=
  served (strays [] rows) rows

/-- Every call has a result somewhere. -/
def Served.isComplete (rows : List Row) (s : Served) : Bool :=
  s.ids.all (outcomes rows).contains

theorem answers_subset {rows : List Row} {x : String} (h : x ∈ answers rows) :
    x ∈ outcomes rows := by
  induction rows with
  | nil => cases h
  | cons row rows ih =>
      cases row with
      | result id =>
          rcases List.mem_append.mp h with h | h
          · exact List.mem_append_left _ h
          · exact List.mem_append_right _ (ih h)
      | system => cases h
      | turn ids => cases h

/-- An answered call is a call, and its result comes from somewhere. -/
theorem got_of_served : ∀ {rows : List Row} {avail : List String} {s : Served} {x : String},
    s ∈ served avail rows → x ∈ s.got → x ∈ s.ids ∧ (x ∈ avail ∨ x ∈ outcomes rows) := by
  intro rows
  induction rows with
  | nil => intro avail s x hs; cases hs
  | cons row rows ih =>
      intro avail s x hs hx
      have hmore : ∀ y, y ∈ outcomes rows → y ∈ outcomes (row :: rows) := by
        intro y hy
        exact List.mem_append_right _ hy
      cases row with
      | result id =>
          obtain ⟨hids, hfrom⟩ := ih hs hx
          exact ⟨hids, hfrom.imp_right (hmore x)⟩
      | system =>
          rcases List.mem_cons.mp hs with rfl | hs
          · cases hx
          · obtain ⟨hids, hfrom⟩ := ih hs hx
            exact ⟨hids, hfrom.imp_right (hmore x)⟩
      | turn ids =>
          rcases List.mem_cons.mp hs with rfl | hs
          · obtain ⟨hids, hfrom⟩ := List.mem_filter.mp hx
            refine ⟨mem_firsts.mp hids, ?_⟩
            rw [Bool.or_eq_true, List.contains_iff_mem, List.contains_iff_mem] at hfrom
            rcases hfrom with hanswer | havail
            · exact Or.inr (hmore x (answers_subset hanswer))
            · exact Or.inl havail
          · obtain ⟨hids, hfrom⟩ := ih hs hx
            exact ⟨hids, hfrom.imp (fun h => (List.mem_filter.mp h).1) (hmore x)⟩

theorem got_sublist : ∀ {rows : List Row} {avail : List String} {s : Served},
    s ∈ served avail rows → s.got.Sublist (firsts s.ids) := by
  intro rows
  induction rows with
  | nil => intro avail s hs; cases hs
  | cons row rows ih =>
      intro avail s hs
      cases row with
      | result id => exact ih hs
      | system =>
          rcases List.mem_cons.mp hs with rfl | hs
          · exact List.nil_sublist _
          · exact ih hs
      | turn ids =>
          rcases List.mem_cons.mp hs with rfl | hs
          · exact List.filter_sublist
          · exact ih hs

/-- A result that is nobody's goes to someone who declares it. -/
theorem served_of_avail : ∀ {rows : List Row} {avail : List String} {s : Served} {x : String},
    x ∈ avail → s ∈ served avail rows → x ∈ s.ids → ∃ s' ∈ served avail rows, x ∈ s'.got := by
  intro rows
  induction rows with
  | nil => intro avail s x _ hs; cases hs
  | cons row rows ih =>
      intro avail s x havail hs hx
      cases row with
      | result id => exact ih havail hs hx
      | system =>
          rcases List.mem_cons.mp hs with rfl | hs
          · cases hx
          · obtain ⟨s', hs', hgot⟩ := ih havail hs hx
            exact ⟨s', List.mem_cons_of_mem _ hs', hgot⟩
      | turn ids =>
          by_cases hids : x ∈ ids
          · refine ⟨_, List.mem_cons_self, List.mem_filter.mpr ⟨mem_firsts.mpr hids, ?_⟩⟩
            rw [Bool.or_eq_true, List.contains_iff_mem, List.contains_iff_mem]
            exact Or.inr havail
          · have havail' : x ∈ avail.filter (fun y => !ids.contains y) := by
              refine List.mem_filter.mpr ⟨havail, ?_⟩
              simpa using hids
            rcases List.mem_cons.mp hs with rfl | hs
            · exact absurd hx hids
            · obtain ⟨s', hs', hgot⟩ := ih havail' hs hx
              exact ⟨s', List.mem_cons_of_mem _ hs', hgot⟩

/-- A result is nobody's, or answers the row before it. -/
theorem stray_or_served : ∀ {rows : List Row} {declared avail : List String} {x : String},
    x ∈ outcomes rows → x ∈ strays declared rows ∨ (x ∈ declared ∧ x ∈ answers rows) ∨
      ∃ s ∈ served avail rows, x ∈ s.got := by
  intro rows
  induction rows with
  | nil => intro declared avail x hx; cases hx
  | cons row rows ih =>
      intro declared avail x hx
      cases row with
      | result id =>
          rcases List.mem_append.mp hx with hid | hx
          · have hid : x ∈ id.toList := hid
            by_cases hdeclared : x ∈ declared
            · exact Or.inr (Or.inl ⟨hdeclared, List.mem_append_left _ hid⟩)
            · refine Or.inl (List.mem_append_left _ (List.mem_filter.mpr ⟨hid, ?_⟩))
              simpa using hdeclared
          · rcases @ih declared avail x hx with h | ⟨h, hanswer⟩ | h
            · exact Or.inl (List.mem_append_right _ h)
            · exact Or.inr (Or.inl ⟨h, List.mem_append_right _ hanswer⟩)
            · exact Or.inr (Or.inr h)
      | system =>
          rcases @ih [] avail x hx with h | ⟨h, _⟩ | ⟨s, hs, hgot⟩
          · exact Or.inl h
          · cases h
          · exact Or.inr (Or.inr ⟨s, List.mem_cons_of_mem _ hs, hgot⟩)
      | turn ids =>
          rcases @ih ids (avail.filter (fun y => !ids.contains y)) x hx with
            h | ⟨h, hanswer⟩ | ⟨s, hs, hgot⟩
          · exact Or.inl h
          · refine Or.inr (Or.inr ⟨_, List.mem_cons_self, List.mem_filter.mpr
              ⟨mem_firsts.mpr h, ?_⟩⟩)
            rw [Bool.or_eq_true, List.contains_iff_mem]
            exact Or.inl hanswer
          · exact Or.inr (Or.inr ⟨s, List.mem_cons_of_mem _ hs, hgot⟩)

theorem strays_subset : ∀ {rows : List Row} {declared : List String} {x : String},
    x ∈ strays declared rows → x ∈ outcomes rows := by
  intro rows
  induction rows with
  | nil => intro declared x h; cases h
  | cons row rows ih =>
      intro declared x h
      cases row with
      | result id =>
          rcases List.mem_append.mp h with h | h
          · exact List.mem_append_left _ (List.mem_filter.mp h).1
          · exact List.mem_append_right _ (ih h)
      | system => exact List.mem_append_right _ (@ih [] x h)
      | turn ids => exact List.mem_append_right _ (@ih ids x h)

/-- **A call that has a result somewhere has one after all.** -/
theorem exists_got_iff {rows : List Row} {s : Served} {x : String} (hs : s ∈ servedIn rows)
    (hx : x ∈ s.ids) : (∃ s' ∈ servedIn rows, x ∈ s'.got) ↔ x ∈ outcomes rows := by
  constructor
  · rintro ⟨s', hs', hgot⟩
    rcases (got_of_served hs' hgot).2 with hstray | hfrom
    · exact strays_subset hstray
    · exact hfrom
  · intro hfrom
    rcases @stray_or_served rows [] (strays [] rows) x hfrom with h | ⟨h, _⟩ | h
    · exact served_of_avail h hs hx
    · cases h
    · exact h

def rowOf (m : Message) : Row :=
  match m.role with
  | .tool => .result m.toolCallId
  | .assistant => .turn m.callIds
  | .user => .turn []
  | .system => .system

def outline (messages : List Message) : List Row :=
  messages.map rowOf

/-! ## Outlines of blocks -/

theorem rowOf_result {m : Message} (h : m.opens = false) : rowOf m = .result m.toolCallId := by
  have := Message.isTool_of_opens h
  rw [Message.isTool, beq_iff_eq] at this
  rw [rowOf, this]

theorem rowOf_opens {m : Message} (h : m.opens = true) :
    rowOf m = .turn m.declared ∨ m.role = .system ∧ rowOf m = .system ∧ m.declared = [] := by
  cases hrole : m.role with
  | tool => simp [Message.opens, Message.isTool, hrole] at h
  | assistant => exact Or.inl (by rw [rowOf, hrole, Message.declared, if_pos hrole])
  | user => exact Or.inl (by rw [rowOf, hrole, Message.declared, if_neg (by simp [hrole])])
  | system => exact Or.inr ⟨rfl, by rw [rowOf, hrole], by rw [Message.declared, if_neg (by simp [hrole])]⟩

section Results

variable {rows : List Message} {rest : List Row}

theorem answers_results : ∀ {rows : List Message}, AreResults rows →
    answers (outline rows ++ rest) = results rows ++ answers rest := by
  intro rows
  induction rows with
  | nil => intro _; rfl
  | cons m rows ih =>
      intro h
      have hstep : outline (m :: rows) = .result m.toolCallId :: outline rows := by
        rw [outline, List.map_cons, rowOf_result (h m List.mem_cons_self)]
        rfl
      rw [hstep, List.cons_append, answers, ih (fun x hx => h x (List.mem_cons_of_mem _ hx)),
        ← List.append_assoc]
      congr 1
      rw [results, results, List.filterMap_cons]
      cases m.toolCallId <;> rfl

theorem served_results {avail : List String} : ∀ {rows : List Message}, AreResults rows →
    served avail (outline rows ++ rest) = served avail rest := by
  intro rows
  induction rows with
  | nil => intro _; rfl
  | cons m rows ih =>
      intro h
      have hstep : outline (m :: rows) = .result m.toolCallId :: outline rows := by
        rw [outline, List.map_cons, rowOf_result (h m List.mem_cons_self)]
        rfl
      rw [hstep, List.cons_append, served, ih (fun x hx => h x (List.mem_cons_of_mem _ hx))]

theorem strays_results {declared : List String} : ∀ {rows : List Message}, AreResults rows →
    strays declared (outline rows ++ rest) =
      (results rows).filter (fun x => !declared.contains x) ++ strays declared rest := by
  intro rows
  induction rows with
  | nil => intro _; rfl
  | cons m rows ih =>
      intro h
      have hstep : outline (m :: rows) = .result m.toolCallId :: outline rows := by
        rw [outline, List.map_cons, rowOf_result (h m List.mem_cons_self)]
        rfl
      rw [hstep, List.cons_append, strays, ih (fun x hx => h x (List.mem_cons_of_mem _ hx)),
        ← List.append_assoc, ← List.filter_append]
      congr 2
      rw [results, results, List.filterMap_cons]
      cases m.toolCallId <;> rfl

end Results

/-- A result somewhere. -/
theorem mem_outcomes {messages : List Message} {x : String} :
    x ∈ outcomes (outline messages) ↔ ∃ m ∈ messages, m.opens = false ∧ m.toolCallId = some x := by
  rw [outcomes, outline, List.flatMap_map, List.mem_flatMap]
  constructor
  · rintro ⟨m, hm, hx⟩
    cases hopens : m.opens with
    | false =>
        rw [rowOf_result hopens] at hx
        exact ⟨m, hm, hopens, by simpa using hx⟩
    | true =>
        rcases rowOf_opens hopens with hrow | ⟨_, hrow, _⟩
        · rw [hrow] at hx
          cases hx
        · rw [hrow] at hx
          cases hx
  · rintro ⟨m, hm, hopens, hid⟩
    refine ⟨m, hm, ?_⟩
    rw [rowOf_result hopens, hid]
    exact List.mem_singleton.mpr rfl

theorem mem_outcomes_join {lead : List Message} {blocks : List (Block Message)} {x : String}
    (h : Blocked Message.opens lead blocks) :
    x ∈ outcomes (outline (join lead blocks)) ↔
      x ∈ results lead ∨ ∃ b ∈ blocks, x ∈ results b.rows := by
  rw [mem_outcomes]
  constructor
  · rintro ⟨m, hm, hopens, hid⟩
    rcases List.mem_append.mp hm with hm | hm
    · exact Or.inl (mem_results.mpr ⟨m, hm, hid⟩)
    · obtain ⟨b, hb, rfl | hm⟩ := mem_flat.mp hm
      · rw [h.head b hb] at hopens
        cases hopens
      · exact Or.inr ⟨b, hb, mem_results.mpr ⟨m, hm, hid⟩⟩
  · rintro (hx | ⟨b, hb, hx⟩)
    · obtain ⟨m, hm, hid⟩ := mem_results.mp hx
      exact ⟨m, List.mem_append_left _ hm, h.lead m hm, hid⟩
    · obtain ⟨m, hm, hid⟩ := mem_results.mp hx
      exact ⟨m, List.mem_append_right _ (mem_flat.mpr ⟨b, hb, Or.inr hm⟩), h.rows b hb m hm, hid⟩

theorem outline_flat_cons (b : Block Message) (blocks : List (Block Message)) :
    outline (flat (b :: blocks)) = rowOf b.head :: (outline b.rows ++ outline (flat blocks)) := by
  rw [flat_cons, outline, List.map_cons, List.map_append]
  rfl

/-- A block ends where the next begins. -/
theorem answers_flat {blocks : List (Block Message)} (h : ∀ b ∈ blocks, b.head.opens = true) :
    answers (outline (flat blocks)) = [] := by
  cases blocks with
  | nil => rfl
  | cons b blocks =>
      rw [outline_flat_cons]
      rcases rowOf_opens (h b List.mem_cons_self) with hrow | ⟨_, hrow, _⟩
      · rw [hrow]
        rfl
      · rw [hrow]
        rfl

/-- One step of `strays` at a row that opens a block. -/
theorem strays_opens {declared : List String} {m : Message} {rest : List Row}
    (h : m.opens = true) : strays declared (rowOf m :: rest) = strays m.declared rest := by
  rcases rowOf_opens h with hrow | ⟨_, hrow, hnone⟩
  · rw [hrow, strays]
  · rw [hrow, strays, hnone]

theorem mem_strays_flat : ∀ {blocks : List (Block Message)} {declared : List String} {x : String},
    Blocked Message.opens [] blocks →
    (x ∈ strays declared (outline (flat blocks)) ↔ StrayIn [] blocks x) := by
  intro blocks
  induction blocks with
  | nil =>
      intro declared x _
      simp [outline, strays, StrayIn, results]
  | cons b blocks ih =>
      intro declared x h
      have htail : Blocked Message.opens [] blocks := ⟨List.forall_mem_nil _, h.tail.head, h.tail.rows⟩
      rw [outline_flat_cons, strays_opens (h.head b List.mem_cons_self),
        strays_results (h.rows b List.mem_cons_self), List.mem_append, ih htail]
      simp only [StrayIn, results, List.filterMap_nil, List.not_mem_nil, false_or, List.mem_filter,
        List.mem_cons, exists_eq_or_imp, Bool.not_eq_true', List.contains_eq_mem,
        decide_eq_false_iff_not]

theorem mem_strays {lead : List Message} {blocks : List (Block Message)} {x : String}
    (h : Blocked Message.opens lead blocks) :
    x ∈ strays [] (outline (join lead blocks)) ↔ StrayIn lead blocks x := by
  have hblocks : Blocked Message.opens [] blocks := ⟨List.forall_mem_nil _, h.head, h.rows⟩
  have hsplit : outline (join lead blocks) = outline lead ++ outline (flat blocks) :=
    List.map_append
  rw [hsplit, strays_results h.lead, List.mem_append, mem_strays_flat hblocks]
  simp [StrayIn, results]

/-! ## The gathered transcript is as the outline says -/

/-- A block of the gathered transcript. -/
structure Files (all : List String) (s : Served) (b : Block Message) : Prop where
  ids : s.ids = b.head.declared
  sub : s.got.Sublist (firsts s.ids)
  rows : ∃ owned loose, b.rows = owned ++ loose ∧ owned.map Message.toolCallId = s.got.map some ∧
    ∀ x ∈ results loose, x ∉ all

/-- A list of calls is determined by its elements and their order. -/
theorem Answered.eq_filter {avail : String → Prop} {b : Block Message} {got : List String}
    (h : Answered avail b got) {p : String → Bool}
    (hp : ∀ x ∈ b.head.declared, p x = true ↔ x ∈ results b.rows ∨ avail x) :
    got = (firsts b.head.declared).filter p := by
  have hgot := sublist_eq_filter (nodup_firsts b.head.declared) h.calls
  rw [hgot]
  refine List.filter_congr ?_
  intro x hx
  rw [mem_firsts] at hx
  rw [Bool.eq_iff_iff, decide_eq_true_eq, hp x hx, h.iff]
  exact and_iff_right hx

theorem Serves.files {all : List String} {avail : String → Prop}
    {blocks blocks' : List (Block Message)} (h : Serves all avail blocks blocks') :
    ∀ {ids : List String}, Blocked Message.opens [] blocks → (∀ x, x ∈ ids ↔ avail x) →
    List.Forall₂ (Files all) (served ids (outline (flat blocks))) blocks' := by
  induction h with
  | nil =>
      intro ids _ _
      exact .nil
  | @cons avail b b' blocks blocks' hfiled _ ih =>
      intro ids hblocked hids
      have htail : Blocked Message.opens [] blocks :=
        ⟨List.forall_mem_nil _, hblocked.tail.head, hblocked.tail.rows⟩
      have hrows := hblocked.rows b List.mem_cons_self
      obtain ⟨owned, loose, got, hsplit, hanswered, hmap, hloose⟩ := hfiled.rows
      have hanswers : answers (outline b.rows ++ outline (flat blocks)) = results b.rows := by
        rw [answers_results hrows, answers_flat htail.head, List.append_nil]
      rw [outline_flat_cons]
      rcases rowOf_opens (hblocked.head b List.mem_cons_self) with hrow | ⟨_, hrow, hnone⟩
      · have hgot := hanswered.eq_filter (p := fun x =>
          (answers (outline b.rows ++ outline (flat blocks))).contains x || ids.contains x) (by
            intro x _
            rw [hanswers, Bool.or_eq_true, List.contains_iff_mem, List.contains_iff_mem, hids])
        rw [hrow, served, served_results hrows]
        refine .cons ⟨by rw [hfiled.head], List.filter_sublist, owned, loose, hsplit, ?_, hloose⟩ ?_
        · rw [hmap, hgot]
        · refine ih htail ?_
          intro x
          rw [List.mem_filter, hids]
          simp
      · have hgot : got = [] := by
          rw [List.eq_nil_iff_forall_not_mem]
          intro x hx
          have := ((hanswered.iff x).mp hx).1
          rw [hnone] at this
          cases this
        rw [hrow, served, served_results hrows]
        refine .cons ⟨by rw [hfiled.head, hnone], List.nil_sublist _, owned, loose, hsplit, ?_,
          hloose⟩ ?_
        · rw [hmap, hgot]
        · refine ih htail ?_
          intro x
          rw [hids, hnone]
          simp

/-- **The gathered transcript.**  Nothing that is declared stands in front, and every
block holds what the outline says. -/
theorem repairMessageOrder_files {lead : List Message} {blocks : List (Block Message)}
    (h : Blocked Message.opens lead blocks) :
    ∃ lead' blocks', repairMessageOrder (join lead blocks) = join lead' blocks' ∧
      Blocked Message.opens lead' blocks' ∧
      blocks'.map Block.head = blocks.map Block.head ∧
      (∀ x ∈ results lead', x ∉ declaredIn blocks) ∧
      List.Forall₂ (Files (declaredIn blocks)) (servedIn (outline (join lead blocks))) blocks' := by
  obtain ⟨lead', blocks', horders, hblocked, hpass⟩ := repairMessageOrder_orders h
  obtain ⟨hlead, todo', hblocks, hserves⟩ :=
    @Orders.serves (declaredIn blocks) _ _ _ _ _ horders (fun _ _ hnot => hnot)
  rw [List.nil_append] at hserves
  have heq : blocks' = todo' := by
    rw [hblocks]
    rfl
  subst heq
  have hblocks : Blocked Message.opens [] blocks := ⟨List.forall_mem_nil _, h.head, h.rows⟩
  have hsplit : outline (join lead blocks) = outline lead ++ outline (flat blocks) :=
    List.map_append
  refine ⟨lead', blocks', hpass, hblocked, ?_, ?_, ?_⟩
  · exact hserves.heads
  · intro x hx
    rw [hlead] at hx
    exact fun hdeclared => (mem_results_kept.mp hx).2 ⟨hdeclared, List.not_mem_nil⟩
  · have hfiles := hserves.files hblocks (fun x => mem_strays h)
    rw [servedIn]
    rw [hsplit] at hfiles ⊢
    rwa [served_results h.lead]

end Octos.Agent
