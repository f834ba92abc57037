/-
# `Octos.Agent.RepairOrder` — gathering results, block by block

A row that is no result opens a block, the results behind it are its block.  The
pass over the order never moves a row that opens a block, and whom a result belongs
to depends on the row that opens its block alone.  So the scan for one assistant is
a filter of each block, and the whole pass goes over the blocks: `Orders`.

    another's block   results that are looked for leave it, unless it declares them
    its own block     one result for each call in front, the others stay behind
-/
import Octos.Agent.MessageRepair
import Octos.Lib.Blocks

namespace Octos.Agent

open Block

/-! ## Owners -/

/-- The ids a row declares. -/
def Message.declared (m : Message) : List String :=
  if m.role = .assistant then m.callIds else []

theorem Message.declares_eq (m : Message) (id : String) :
    m.declares id = m.declared.contains id := by
  cases hrole : m.role <;> simp [Message.declares, Message.declared, hrole]

/-- A row that opens a block. -/
def Message.opens (m : Message) : Bool :=
  !m.isTool

/-- Results. -/
def AreResults (rows : List Message) : Prop :=
  ∀ m ∈ rows, m.opens = false

theorem Message.isTool_of_opens {m : Message} (h : m.opens = false) : m.isTool = true := by
  simpa [Message.opens] using h

theorem ownerOf_results {id : String} {rows : List Message} (h : AreResults rows) :
    ownerOf id rows = none := by
  have hdrop : rows.reverse.dropWhile Message.isTool = [] := by
    rw [List.dropWhile_eq_nil_iff]
    intro m hm
    exact Message.isTool_of_opens (h m (List.mem_reverse.mp hm))
  rw [ownerOf, hdrop]

theorem ownerOf_block {id : String} {before rows : List Message} {m : Message}
    (hm : m.opens = true) (h : AreResults rows) :
    ownerOf id (before ++ m :: rows) = if m.declares id then some before.length else none := by
  have hdrop : (before ++ m :: rows).reverse.dropWhile Message.isTool = m :: before.reverse := by
    rw [List.reverse_append, List.reverse_cons, List.append_assoc,
      List.dropWhile_append_of_pos]
    · exact List.dropWhile_cons_of_neg (by simpa [Message.opens] using hm)
    · intro x hx
      exact Message.isTool_of_opens (h x (List.mem_reverse.mp hx))
  rw [ownerOf, hdrop]
  dsimp only
  rw [List.length_reverse]

/-! ## One scan -/

/-- A result that is looked for, and not declared where it stands. -/
def stray (ids declared : List String) (m : Message) : Bool :=
  m.toolCallId.any (fun id => ids.contains id && !declared.contains id)

def keptRows (ids declared : List String) (rows : List Message) : List Message :=
  rows.filter (fun m => !stray ids declared m)

def takenRows (ids declared : List String) (rows : List Message) : List Message :=
  rows.filter (stray ids declared)

def collect (collected : Table String Message) (rows : List Message) : Table String Message :=
  rows.foldl (fun collected m => m.toolCallId.elim collected (fun id => collected.insert id m))
    collected

section Scan

variable {ids declared : List String} {collected : Table String Message} {rest : List Message}

theorem matchedId_tool {m : Message} (h : m.opens = false) :
    matchedId ids m = m.toolCallId.filter ids.contains :=
  if_pos (Message.isTool_of_opens h)

theorem matchedId_opens {m : Message} (h : m.opens = true) : matchedId ids m = none :=
  if_neg (by simpa [Message.opens] using h)

/-- The turn of the scan at one result. -/
theorem gather_result {m : Message} {i : Nat} {before : List Message} (hm : m.opens = false)
    (hi : before.length ≠ i)
    (howner : ∀ id, (ownerOf id before).any (fun owner => owner != i) = declared.contains id) :
    gather ids i collected before (m :: rest) =
      if stray ids declared m then
        gather ids (if before.length < i then i - 1 else i) (collect collected [m]) before rest
      else gather ids i collected (before ++ [m]) rest := by
  rw [gather, if_neg hi, matchedId_tool hm]
  cases hid : m.toolCallId with
  | none =>
      have hstray : stray ids declared m = false := by
        rw [stray, hid]
        rfl
      rw [hstray]
      rfl
  | some id =>
      have hcollect : collect collected [m] = collected.insert id m := by
        rw [collect, List.foldl_cons, List.foldl_nil, hid]
        rfl
      have hstray : stray ids declared m = (ids.contains id && !declared.contains id) := by
        rw [stray, hid]
        rfl
      rw [hstray, hcollect]
      cases hids : ids.contains id with
      | false =>
          rw [Option.filter_some_neg hids]
          rfl
      | true =>
          rw [Option.filter_some_pos hids]
          dsimp only
          rw [howner id]
          cases declared.contains id <;> rfl

theorem gather_opens {m : Message} {i : Nat} {before : List Message} (hm : m.opens = true) :
    gather ids i collected before (m :: rest) = gather ids i collected (before ++ [m]) rest := by
  rw [gather, matchedId_opens hm]
  split <;> rfl

/-- Results in front of the assistant: its index moves with every row that is taken. -/
theorem gather_before : ∀ {rows before : List Message} {collected : Table String Message} {n : Nat},
    AreResults rows →
    (∀ id extra i, AreResults extra → before.length ≤ i →
      (ownerOf id (before ++ extra)).any (fun owner => owner != i) = declared.contains id) →
    gather ids (before.length + (rows.length + n)) collected before (rows ++ rest) =
      gather ids (before.length + ((keptRows ids declared rows).length + n))
        (collect collected (takenRows ids declared rows))
        (before ++ keptRows ids declared rows) rest := by
  intro rows
  induction rows with
  | nil =>
      intro before collected n _ _
      simp [keptRows, takenRows, collect]
  | cons m rows ih =>
      intro before collected n hrows howner
      have hm := hrows m List.mem_cons_self
      have htail : AreResults rows := fun x hx => hrows x (List.mem_cons_of_mem _ hx)
      have hlt : before.length < before.length + ((m :: rows).length + n) := by
        rw [List.length_cons]
        omega
      have hhere : ∀ id, (ownerOf id before).any
          (fun owner => owner != before.length + ((m :: rows).length + n)) =
            declared.contains id := by
        intro id
        have := howner id [] _ nofun hlt.le
        rwa [List.append_nil] at this
      rw [List.cons_append, gather_result hm hlt.ne hhere, if_pos hlt]
      cases hstray : stray ids declared m with
      | true =>
          have hindex : before.length + ((m :: rows).length + n) - 1 =
              before.length + (rows.length + n) := by
            rw [List.length_cons]
            omega
          rw [if_pos rfl, hindex, ih htail howner]
          simp [keptRows, takenRows, hstray, collect]
      | false =>
          have hindex : before.length + ((m :: rows).length + n) =
              (before ++ [m]).length + (rows.length + n) := by
            simp only [List.length_append, List.length_cons, List.length_nil]
            omega
          have hnext : ∀ id extra i, AreResults extra → (before ++ [m]).length ≤ i →
              (ownerOf id ((before ++ [m]) ++ extra)).any (fun owner => owner != i) =
                declared.contains id := by
            intro id extra i hextra hi
            rw [List.append_assoc]
            refine howner id ([m] ++ extra) i ?_ ?_
            · intro x hx
              rcases List.mem_append.mp hx with hx | hx
              · rw [List.mem_singleton.mp hx]
                exact hm
              · exact hextra x hx
            · rw [List.length_append] at hi
              omega
          rw [if_neg (by simp), hindex, ih htail hnext]
          have hkept : keptRows ids declared (m :: rows) = m :: keptRows ids declared rows := by
            simp [keptRows, hstray]
          have htaken : takenRows ids declared (m :: rows) = takenRows ids declared rows := by
            simp [takenRows, hstray]
          rw [hkept, htaken]
          congr 1
          · simp only [List.length_append, List.length_cons, List.length_nil]
            omega
          · simp

/-- Results behind the assistant. -/
theorem gather_after : ∀ {rows before : List Message} {collected : Table String Message} {i : Nat},
    AreResults rows → i < before.length →
    (∀ id extra, AreResults extra →
      (ownerOf id (before ++ extra)).any (fun owner => owner != i) = declared.contains id) →
    gather ids i collected before (rows ++ rest) =
      gather ids i (collect collected (takenRows ids declared rows))
        (before ++ keptRows ids declared rows) rest := by
  intro rows
  induction rows with
  | nil =>
      intro before collected i _ _ _
      simp [keptRows, takenRows, collect]
  | cons m rows ih =>
      intro before collected i hrows hi howner
      have hm := hrows m List.mem_cons_self
      have htail : AreResults rows := fun x hx => hrows x (List.mem_cons_of_mem _ hx)
      have hhere : ∀ id, (ownerOf id before).any (fun owner => owner != i) =
          declared.contains id := by
        intro id
        have := howner id [] nofun
        rwa [List.append_nil] at this
      have hnlt : ¬ before.length < i := by omega
      rw [List.cons_append, gather_result hm hi.ne' hhere, if_neg hnlt]
      cases hstray : stray ids declared m with
      | true =>
          rw [if_pos rfl, ih htail hi howner]
          simp [keptRows, takenRows, hstray, collect]
      | false =>
          have hnext : ∀ id extra, AreResults extra →
              (ownerOf id ((before ++ [m]) ++ extra)).any (fun owner => owner != i) =
                declared.contains id := by
            intro id extra hextra
            rw [List.append_assoc]
            refine howner id ([m] ++ extra) ?_
            intro x hx
            rcases List.mem_append.mp hx with hx | hx
            · rw [List.mem_singleton.mp hx]
              exact hm
            · exact hextra x hx
          have hlt : i < (before ++ [m]).length := by
            rw [List.length_append]
            omega
          rw [if_neg (by simp), ih htail hlt hnext]
          simp [keptRows, takenRows, hstray]

/-- The rows of a block that stay, for an assistant with these ids elsewhere. -/
def trimBlock (ids : List String) (b : Block Message) : Block Message :=
  { b with rows := keptRows ids b.head.declared b.rows }

def trimBlocks (ids : List String) (blocks : List (Block Message)) : List (Block Message) :=
  blocks.map (trimBlock ids)

def takenBlocks (ids : List String) (blocks : List (Block Message)) : List Message :=
  blocks.flatMap (fun b => takenRows ids b.head.declared b.rows)

theorem collect_append (collected : Table String Message) (a b : List Message) :
    collect collected (a ++ b) = collect (collect collected a) b :=
  List.foldl_append

/-- Blocks in front of the assistant. -/
theorem gather_blocks_before : ∀ {blocks : List (Block Message)} {before : List Message}
    {collected : Table String Message} {n : Nat},
    (∀ b ∈ blocks, b.head.opens = true ∧ AreResults b.rows) →
    gather ids (before.length + ((flat blocks).length + n)) collected before (flat blocks ++ rest) =
      gather ids (before.length + ((flat (trimBlocks ids blocks)).length + n))
        (collect collected (takenBlocks ids blocks))
        (before ++ flat (trimBlocks ids blocks)) rest := by
  intro blocks
  induction blocks with
  | nil =>
      intro before collected n _
      simp [trimBlocks, takenBlocks, collect]
  | cons b blocks ih =>
      intro before collected n hblocks
      obtain ⟨hhead, hrows⟩ := hblocks b List.mem_cons_self
      have howner : ∀ id extra i, AreResults extra → (before ++ [b.head]).length ≤ i →
          (ownerOf id ((before ++ [b.head]) ++ extra)).any (fun owner => owner != i) =
            b.head.declared.contains id := by
        intro id extra i hextra hi
        rw [List.append_assoc, List.singleton_append, ownerOf_block hhead hextra,
          Message.declares_eq]
        rw [List.length_append, List.length_singleton] at hi
        cases b.head.declared.contains id with
        | true =>
            have hne : before.length ≠ i := by omega
            simpa using hne
        | false => rfl
      have hindex : before.length + ((flat (b :: blocks)).length + n) =
          (before ++ [b.head]).length + (b.rows.length + ((flat blocks).length + n)) := by
        simp only [flat_cons, List.length_cons, List.length_append, List.length_nil]
        omega
      have hnext : (before ++ [b.head]).length +
          ((keptRows ids b.head.declared b.rows).length + ((flat blocks).length + n)) =
          (before ++ [b.head] ++ keptRows ids b.head.declared b.rows).length +
            ((flat blocks).length + n) := by
        simp only [List.length_append]
        omega
      rw [flat_cons, List.cons_append, List.append_assoc, gather_opens hhead, ← flat_cons, hindex,
        gather_before hrows howner, hnext,
        ih (fun c hc => hblocks c (List.mem_cons_of_mem _ hc)), ← collect_append]
      congr 1
      · simp only [trimBlocks, List.map_cons, flat_cons, trimBlock, List.length_append,
          List.length_cons, List.length_nil]
        omega
      · simp [trimBlocks, trimBlock]

/-- Blocks behind the assistant. -/
theorem gather_blocks_after : ∀ {blocks : List (Block Message)} {before : List Message}
    {collected : Table String Message} {i : Nat},
    (∀ b ∈ blocks, b.head.opens = true ∧ AreResults b.rows) → i < before.length →
    gather ids i collected before (flat blocks ++ rest) =
      gather ids i (collect collected (takenBlocks ids blocks))
        (before ++ flat (trimBlocks ids blocks)) rest := by
  intro blocks
  induction blocks with
  | nil =>
      intro before collected i _ _
      simp [trimBlocks, takenBlocks, collect]
  | cons b blocks ih =>
      intro before collected i hblocks hi
      obtain ⟨hhead, hrows⟩ := hblocks b List.mem_cons_self
      have hlt : i < (before ++ [b.head]).length := by
        rw [List.length_append]
        omega
      have howner : ∀ id extra, AreResults extra →
          (ownerOf id ((before ++ [b.head]) ++ extra)).any (fun owner => owner != i) =
            b.head.declared.contains id := by
        intro id extra hextra
        rw [List.append_assoc, List.singleton_append, ownerOf_block hhead hextra,
          Message.declares_eq]
        cases b.head.declared.contains id with
        | true => simpa using hi.ne'
        | false => rfl
      have hlt' : i < (before ++ [b.head] ++ keptRows ids b.head.declared b.rows).length := by
        rw [List.length_append]
        omega
      rw [flat_cons, List.cons_append, List.append_assoc, gather_opens hhead,
        gather_after hrows hlt howner,
        ih (fun c hc => hblocks c (List.mem_cons_of_mem _ hc)) hlt', ← collect_append]
      congr 1
      simp [trimBlocks, trimBlock]

end Scan

/-- What the scan for one assistant takes: its own results count as nobody's. -/
def taken (ids : List String) (lead : List Message) (done : List (Block Message))
    (rows : List Message) (todo : List (Block Message)) : List Message :=
  takenRows ids [] lead ++ (takenBlocks ids done ++ (takenRows ids [] rows ++ takenBlocks ids todo))

/-- **The scan for one assistant.** -/
theorem gather_assistant (m : Message) (rows : List Message) {lead : List Message}
    {done todo : List (Block Message)}
    (hblocked : Blocked Message.opens lead (done ++ ⟨m, rows⟩ :: todo)) :
    gather m.callIds (join lead done).length ∅ [] (join lead (done ++ ⟨m, rows⟩ :: todo)) =
      ⟨join (keptRows m.callIds [] lead) (trimBlocks m.callIds done ++
          ⟨m, keptRows m.callIds [] rows⟩ :: trimBlocks m.callIds todo),
        (join (keptRows m.callIds [] lead) (trimBlocks m.callIds done)).length,
        collect ∅ (taken m.callIds lead done rows todo)⟩ := by
  have hparts : ∀ b ∈ done ++ ⟨m, rows⟩ :: todo, b.head.opens = true ∧ AreResults b.rows :=
    fun b hb => ⟨hblocked.head b hb, hblocked.rows b hb⟩
  have hdone := fun b hb => hparts b (List.mem_append_left _ hb)
  obtain ⟨hhead, hrows⟩ := hparts ⟨m, rows⟩ (List.mem_append_right _ List.mem_cons_self)
  have htodo := fun b hb => hparts b (List.mem_append_right _ (List.mem_cons_of_mem _ hb))
  have hlead : ∀ id extra i, AreResults extra → ([] : List Message).length ≤ i →
      (ownerOf id ([] ++ extra)).any (fun owner => owner != i) = ([] : List String).contains id := by
    intro id extra i hextra _
    rw [List.nil_append, ownerOf_results hextra]
    rfl
  have hstart : (join lead done).length = ([] : List Message).length +
      (lead.length + ((flat done).length + 0)) := by
    simp [join]
  have hsplit : join lead (done ++ ⟨m, rows⟩ :: todo) =
      lead ++ (flat done ++ (m :: (rows ++ flat todo))) := by
    simp [join]
  rw [hstart, hsplit, gather_before hblocked.lead hlead]
  have hmiddle : ([] : List Message).length +
      ((keptRows m.callIds [] lead).length + ((flat done).length + 0)) =
      ([] ++ keptRows m.callIds [] lead).length + ((flat done).length + 0) := by
    simp
  rw [hmiddle, gather_blocks_before hdone, ← collect_append]
  have hindex : ([] ++ keptRows m.callIds [] lead).length +
      ((flat (trimBlocks m.callIds done)).length + 0) =
      (join (keptRows m.callIds [] lead) (trimBlocks m.callIds done)).length := by
    simp [join]
  have hbefore : [] ++ keptRows m.callIds [] lead ++ flat (trimBlocks m.callIds done) =
      join (keptRows m.callIds [] lead) (trimBlocks m.callIds done) := rfl
  rw [hindex, hbefore]
  -- the assistant itself is passed over, and owns the results behind it
  rw [gather, if_pos rfl]
  have hown : ∀ id extra, AreResults extra →
      (ownerOf id ((join (keptRows m.callIds [] lead) (trimBlocks m.callIds done) ++ [m]) ++
        extra)).any (fun owner => owner !=
          (join (keptRows m.callIds [] lead) (trimBlocks m.callIds done)).length) =
        ([] : List String).contains id := by
    intro id extra hextra
    rw [List.append_assoc, List.singleton_append, ownerOf_block hhead hextra]
    cases m.declares id <;> simp
  have hlt : (join (keptRows m.callIds [] lead) (trimBlocks m.callIds done)).length <
      (join (keptRows m.callIds [] lead) (trimBlocks m.callIds done) ++ [m]).length := by
    simp
  have hlt' : (join (keptRows m.callIds [] lead) (trimBlocks m.callIds done)).length <
      (join (keptRows m.callIds [] lead) (trimBlocks m.callIds done) ++ [m] ++
        keptRows m.callIds [] rows).length := by
    rw [List.length_append]
    omega
  rw [gather_after hrows hlt hown, ← collect_append]
  have hend : flat todo = flat todo ++ [] := (List.append_nil _).symm
  rw [hend, gather_blocks_after htodo hlt', ← collect_append, gather]
  congr 1
  · simp [join]
  · simp [taken]

/-! ## The pass -/

/-- The block of an assistant after its turn: one result for each call in front. -/
def filledBlock (lead : List Message) (done : List (Block Message)) (b : Block Message)
    (todo : List (Block Message)) : Block Message :=
  { b with
    rows := reinsert (collect ∅ (taken b.head.callIds lead done b.rows todo)) b.head.callIds ++
      keptRows b.head.callIds [] b.rows }

/-- The pass over the blocks that are to come; `done` are those it has gone over. -/
inductive Orders : List Message → List (Block Message) → List (Block Message) →
    List Message → List (Block Message) → Prop
  | finish {lead : List Message} {done : List (Block Message)} : Orders lead done [] lead done
  | skip {lead lead' : List Message} {done todo blocks : List (Block Message)} {b : Block Message} :
      b.head.hasToolCalls = false → Orders lead (done ++ [b]) todo lead' blocks →
      Orders lead done (b :: todo) lead' blocks
  | fill {lead lead' : List Message} {done todo blocks : List (Block Message)} {b : Block Message} :
      b.head.hasToolCalls = true →
      Orders (keptRows b.head.callIds [] lead)
        (trimBlocks b.head.callIds done ++ [filledBlock lead done b todo])
        (trimBlocks b.head.callIds todo) lead' blocks →
      Orders lead done (b :: todo) lead' blocks

/-- Results have no calls: the loop goes past them. -/
theorem orderLoop_results : ∀ {rows before rest : List Message} {fuel : Nat},
    AreResults rows → rows.length ≤ fuel →
    orderLoop fuel before.length (before ++ (rows ++ rest)) =
      orderLoop (fuel - rows.length) (before ++ rows).length (before ++ rows ++ rest) := by
  intro rows
  induction rows with
  | nil =>
      intro before rest fuel _ _
      simp
  | cons m rows ih =>
      intro before rest fuel hrows hfuel
      rw [List.length_cons] at hfuel
      obtain ⟨fuel, rfl⟩ : ∃ n, fuel = n + 1 := ⟨fuel - 1, by omega⟩
      have hm : m.hasToolCalls = false := by
        have := Message.isTool_of_opens (hrows m List.mem_cons_self)
        simp only [Message.isTool, beq_iff_eq] at this
        rw [Message.hasToolCalls, this]
        rfl
      have hget : (before ++ (m :: rows ++ rest))[before.length]? = some m := by
        rw [List.cons_append, List.getElem?_append_right (le_refl _), Nat.sub_self]
        rfl
      have hstep : orderLoop (fuel + 1) before.length (before ++ (m :: rows ++ rest)) =
          orderLoop fuel (before.length + 1) (before ++ (m :: rows ++ rest)) := by
        rw [orderLoop, hget]
        dsimp only
        rw [hm]
        rfl
      have hmove : before ++ (m :: rows ++ rest) = (before ++ [m]) ++ (rows ++ rest) := by simp
      have hlen : before.length + 1 = (before ++ [m]).length := by simp
      have hfuel' : fuel + 1 - (rows.length + 1) = fuel - rows.length := by omega
      rw [hstep, hmove, hlen, ih (fun x hx => hrows x (List.mem_cons_of_mem _ hx)) (by omega),
        List.length_cons, hfuel']
      simp

theorem areResults_filter {rows : List Message} {p : Message → Bool} (h : AreResults rows) :
    AreResults (rows.filter p) :=
  fun m hm => h m (List.mem_filter.mp hm).1

theorem areResults_kept {ids declared : List String} {rows : List Message} (h : AreResults rows) :
    AreResults (keptRows ids declared rows) :=
  areResults_filter h

theorem blocked_trim {ids : List String} {lead : List Message} {blocks : List (Block Message)}
    (h : Blocked Message.opens lead blocks) :
    Blocked Message.opens (keptRows ids [] lead) (trimBlocks ids blocks) where
  lead := areResults_filter h.lead
  head := by
    intro b hb
    obtain ⟨b, hmem, rfl⟩ := List.mem_map.mp hb
    exact h.head b hmem
  rows := by
    intro b hb
    obtain ⟨b, hmem, rfl⟩ := List.mem_map.mp hb
    exact areResults_filter (h.rows b hmem)

theorem mem_takenBlocks {ids : List String} {blocks : List (Block Message)} {m : Message} :
    m ∈ takenBlocks ids blocks ↔ ∃ b ∈ blocks, m ∈ b.rows ∧ stray ids b.head.declared m = true := by
  simp [takenBlocks, takenRows]

theorem areResults_taken {ids : List String} {lead rows : List Message}
    {done todo : List (Block Message)} (hlead : AreResults lead) (hrows : AreResults rows)
    (hdone : ∀ b ∈ done, AreResults b.rows) (htodo : ∀ b ∈ todo, AreResults b.rows) :
    AreResults (taken ids lead done rows todo) := by
  intro m hm
  simp only [taken, List.mem_append, mem_takenBlocks] at hm
  rcases hm with hm | ⟨b, hb, hm, _⟩ | hm | ⟨b, hb, hm, _⟩
  · exact areResults_filter hlead m hm
  · exact hdone b hb m hm
  · exact areResults_filter hrows m hm
  · exact htodo b hb m hm

/-- What is collected under an id is one of the rows, and has that id. -/
theorem get_collect {rows : List Message} : ∀ {collected : Table String Message} {id : String}
    {m : Message}, (collect collected rows)[id]? = some m →
    collected[id]? = some m ∨ m ∈ rows ∧ m.toolCallId = some id := by
  induction rows with
  | nil => intro collected id m h; exact Or.inl h
  | cons row rows ih =>
      intro collected id m h
      rcases ih (show (collect (row.toolCallId.elim collected (fun id => collected.insert id row))
        rows)[id]? = some m from h) with hold | ⟨hmem, hid⟩
      · cases hrow : row.toolCallId with
        | none =>
            rw [hrow] at hold
            exact Or.inl hold
        | some key =>
            rw [hrow] at hold
            rcases Table.of_get_insert hold with ⟨rfl, rfl⟩ | ⟨_, hold⟩
            · exact Or.inr ⟨List.mem_cons_self, hrow⟩
            · exact Or.inl hold
      · exact Or.inr ⟨List.mem_cons_of_mem _ hmem, hid⟩

theorem mem_reinsert : ∀ {ids : List String} {collected : Table String Message} {m : Message},
    m ∈ reinsert collected ids → ∃ id ∈ ids, collected[id]? = some m := by
  intro ids
  induction ids with
  | nil => intro collected m h; cases h
  | cons id ids ih =>
      intro collected m h
      rw [reinsert] at h
      split at h
      · next row hrow =>
          rcases List.mem_cons.mp h with rfl | h
          · exact ⟨id, List.mem_cons_self, hrow⟩
          · obtain ⟨key, hkey, hget⟩ := ih h
            refine ⟨key, List.mem_cons_of_mem _ hkey, ?_⟩
            rw [Table.get_erase] at hget
            split at hget
            · cases hget
            · exact hget
      · obtain ⟨key, hkey, hget⟩ := ih h
        exact ⟨key, List.mem_cons_of_mem _ hkey, hget⟩

theorem mem_reinsert_collect {ids : List String} {rows : List Message} {m : Message}
    (h : m ∈ reinsert (collect ∅ rows) ids) : m ∈ rows ∧ ∃ id ∈ ids, m.toolCallId = some id := by
  obtain ⟨id, hid, hget⟩ := mem_reinsert h
  rcases get_collect hget with hnone | ⟨hmem, hrow⟩
  · rw [Std.ExtTreeMap.getElem?_empty] at hnone
    cases hnone
  · exact ⟨hmem, id, hid, hrow⟩

theorem blocked_fill {lead : List Message} {done todo : List (Block Message)} {b : Block Message}
    (h : Blocked Message.opens lead (done ++ b :: todo)) :
    Blocked Message.opens (keptRows b.head.callIds [] lead)
      ((trimBlocks b.head.callIds done ++ [filledBlock lead done b todo]) ++
        trimBlocks b.head.callIds todo) := by
  have hdone : Blocked Message.opens lead done :=
    ⟨h.lead, fun c hc => h.head c (List.mem_append_left _ hc),
      fun c hc => h.rows c (List.mem_append_left _ hc)⟩
  have htodo : Blocked Message.opens lead todo :=
    ⟨h.lead, fun c hc => h.head c (List.mem_append_right _ (List.mem_cons_of_mem _ hc)),
      fun c hc => h.rows c (List.mem_append_right _ (List.mem_cons_of_mem _ hc))⟩
  have hb : b ∈ done ++ b :: todo := List.mem_append_right _ List.mem_cons_self
  have hfilled : AreResults (filledBlock lead done b todo).rows := by
    intro m hm
    rcases List.mem_append.mp hm with hm | hm
    · exact areResults_taken h.lead (h.rows b hb) hdone.rows htodo.rows m (mem_reinsert_collect hm).1
    · exact areResults_filter (h.rows b hb) m hm
  refine ⟨(blocked_trim hdone).lead, ?_, ?_⟩
  · intro c hc
    rcases List.mem_append.mp hc with hc | hc
    · rcases List.mem_append.mp hc with hc | hc
      · exact (blocked_trim hdone).head c hc
      · rw [List.mem_singleton.mp hc]
        exact h.head b hb
    · exact (blocked_trim htodo).head c hc
  · intro c hc
    rcases List.mem_append.mp hc with hc | hc
    · rcases List.mem_append.mp hc with hc | hc
      · exact (blocked_trim hdone).rows c hc
      · rw [List.mem_singleton.mp hc]
        exact hfilled
    · exact (blocked_trim htodo).rows c hc

theorem flat_trimBlocks_length (ids : List String) (blocks : List (Block Message)) :
    (flat (trimBlocks ids blocks)).length ≤ (flat blocks).length := by
  induction blocks with
  | nil => exact le_refl _
  | cons b blocks ih =>
      have hrows : (keptRows ids b.head.declared b.rows).length ≤ b.rows.length :=
        List.length_filter_le _ _
      show (flat (trimBlock ids b :: trimBlocks ids blocks)).length ≤ _
      simp only [flat_cons, trimBlock, List.length_cons, List.length_append]
      omega

/-- One turn of the loop at a row without calls. -/
theorem orderLoop_skip {fuel : Nat} {before rest : List Message} {m : Message}
    (hm : m.hasToolCalls = false) :
    orderLoop (fuel + 1) before.length (before ++ m :: rest) =
      orderLoop fuel (before ++ [m]).length (before ++ [m] ++ rest) := by
  have hget : (before ++ m :: rest)[before.length]? = some m := by
    rw [List.getElem?_append_right (le_refl _), Nat.sub_self]
    rfl
  rw [orderLoop, hget]
  dsimp only
  rw [hm, List.length_append, List.append_assoc]
  rfl

/-- One turn of the loop at an assistant with calls. -/
theorem orderLoop_fill {fuel : Nat} {lead : List Message} {done todo : List (Block Message)}
    {b : Block Message} (hcalls : b.head.hasToolCalls = true)
    (hblocked : Blocked Message.opens lead (done ++ b :: todo)) :
    orderLoop (fuel + 1) (join lead done).length (join lead (done ++ b :: todo)) =
      let ids := b.head.callIds
      let before := join (keptRows ids [] lead) (trimBlocks ids done) ++ [b.head] ++
        reinsert (collect ∅ (taken ids lead done b.rows todo)) ids
      orderLoop fuel before.length
        (before ++ (keptRows ids [] b.rows ++ flat (trimBlocks ids todo))) := by
  have hlist : join lead (done ++ b :: todo) = join lead done ++ b.head :: (b.rows ++ flat todo) := by
    simp [join]
  have hget : (join lead (done ++ b :: todo))[(join lead done).length]? = some b.head := by
    rw [hlist, List.getElem?_append_right (le_refl _), Nat.sub_self]
    rfl
  rw [orderLoop, hget]
  dsimp only
  rw [if_pos hcalls, gather_assistant b.head b.rows hblocked]
  dsimp only
  generalize hids : b.head.callIds = ids
  generalize hrows : reinsert (collect ∅ (taken ids lead done b.rows todo)) ids = rows
  have hsplit : join (keptRows ids [] lead) (trimBlocks ids done ++
      ⟨b.head, keptRows ids [] b.rows⟩ :: trimBlocks ids todo) =
      (join (keptRows ids [] lead) (trimBlocks ids done) ++ [b.head]) ++
        (keptRows ids [] b.rows ++ flat (trimBlocks ids todo)) := by
    simp [join]
  have hlen : (join (keptRows ids [] lead) (trimBlocks ids done)).length + 1 =
      (join (keptRows ids [] lead) (trimBlocks ids done) ++ [b.head]).length := by
    simp
  rw [hsplit, hlen, List.take_left, List.drop_left, ← List.length_append, ← List.append_assoc _ rows]

/-- **The pass, block by block.** -/
theorem orderLoop_orders : ∀ {n : Nat} {lead : List Message} {done todo : List (Block Message)}
    {fuel : Nat}, todo.length = n → Blocked Message.opens lead (done ++ todo) →
    (flat todo).length ≤ fuel →
    ∃ lead' blocks, Orders lead done todo lead' blocks ∧ Blocked Message.opens lead' blocks ∧
      orderLoop fuel (join lead done).length (join lead (done ++ todo)) = join lead' blocks := by
  intro n
  induction n with
  | zero =>
      intro lead done todo fuel hlength hblocked _
      obtain rfl := List.eq_nil_of_length_eq_zero hlength
      rw [List.append_nil] at hblocked ⊢
      refine ⟨lead, done, .finish, hblocked, ?_⟩
      cases fuel with
      | zero => rfl
      | succ fuel => rw [orderLoop, List.getElem?_eq_none (le_refl _)]
  | succ n ih =>
      intro lead done todo fuel hlength hblocked hfuel
      obtain ⟨b, todo, rfl⟩ := List.exists_cons_of_length_eq_add_one hlength
      have hb : b ∈ done ++ b :: todo := List.mem_append_right _ List.mem_cons_self
      rw [flat_cons, List.length_cons, List.length_append] at hfuel
      obtain ⟨fuel, rfl⟩ : ∃ k, fuel = k + 1 := ⟨fuel - 1, by omega⟩
      rw [List.length_cons, Nat.add_right_cancel_iff] at hlength
      cases hcalls : b.head.hasToolCalls with
      | false =>
          have hblocked' : Blocked Message.opens lead ((done ++ [b]) ++ todo) := by
            rwa [List.append_assoc, List.singleton_append]
          obtain ⟨lead', blocks, horders, hresult, hloop⟩ :=
            @ih lead (done ++ [b]) todo (fuel - b.rows.length) hlength hblocked' (by omega)
          refine ⟨lead', blocks, .skip hcalls horders, hresult, ?_⟩
          rw [← hloop]
          have hlist : join lead (done ++ b :: todo) =
              join lead done ++ b.head :: (b.rows ++ flat todo) := by
            simp [join]
          rw [hlist, orderLoop_skip hcalls, orderLoop_results (hblocked.rows b hb) (by omega)]
          congr 1 <;> simp [join]
      | true =>
          have htrim := flat_trimBlocks_length b.head.callIds todo
          have hkept : (keptRows b.head.callIds [] b.rows).length ≤ b.rows.length :=
            List.length_filter_le _ _
          obtain ⟨lead', blocks, horders, hresult, hloop⟩ :=
            @ih _ _ (trimBlocks b.head.callIds todo)
              (fuel - (keptRows b.head.callIds [] b.rows).length)
              (by simpa [trimBlocks] using hlength) (blocked_fill hblocked) (by omega)
          refine ⟨lead', blocks, .fill hcalls horders, hresult, ?_⟩
          rw [← hloop, orderLoop_fill hcalls hblocked]
          dsimp only
          rw [orderLoop_results (areResults_kept (hblocked.rows b hb)) (by omega)]
          congr 1 <;> simp [join, filledBlock]

/-- The pass over a whole transcript. -/
theorem repairMessageOrder_orders {lead : List Message} {blocks : List (Block Message)}
    (h : Blocked Message.opens lead blocks) :
    ∃ lead' blocks', Orders lead [] blocks lead' blocks' ∧ Blocked Message.opens lead' blocks' ∧
      repairMessageOrder (join lead blocks) = join lead' blocks' := by
  have hfuel : (flat blocks).length ≤ (join lead blocks).length - lead.length := by
    simp [join]
  obtain ⟨lead', blocks', horders, hblocked, hloop⟩ :=
    @orderLoop_orders _ lead [] blocks _ rfl h hfuel
  refine ⟨lead', blocks', horders, hblocked, ?_⟩
  rw [← hloop, repairMessageOrder]
  have hlength : lead.length ≤ (join lead blocks).length := by
    simp [join]
  have hstart := @orderLoop_results lead [] (flat blocks) _ h.lead hlength
  simpa [join] using hstart

end Octos.Agent
