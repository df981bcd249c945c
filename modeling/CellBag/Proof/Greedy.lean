import CellBag.Proof.Lossless
import CellBag.Proof.Matches

/-!
`run_lz` parses the bits greedily, and its output restores them.
-/

namespace CellBag.Serializator
open BitString CommonPrefix Huffman SuffixAutomaton

/-- The tokens of the greedy parse from position `i` on. -/
def greedyFrom (bits : List Bool) (i : Nat) : List Token :=
  if i < bits.length then
    if MIN_MATCH_LEN ≤ (longestBefore bits i i).2 then
      ⟨i, (longestBefore bits i i).1, (longestBefore bits i i).2⟩ ::
        greedyFrom bits (i + (longestBefore bits i i).2)
    else greedyFrom bits (i + 1)
  else []
termination_by bits.length - i
decreasing_by
  · have positive : 0 < MIN_MATCH_LEN := by decide
    omega
  · omega

/-- At each position the parse takes the longest match of at least `MIN_MATCH_LEN` bits, and among
those the last one. -/
def greedyTokens (bits : List Bool) : List Token := greedyFrom bits 0

/-- Behind the bits there are no tokens. -/
theorem greedyFrom_end {bits : List Bool} {i : Nat} (behind : bits.length ≤ i) :
    greedyFrom bits i = [] := by
  rw [greedyFrom, if_neg (Nat.not_lt.mpr behind)]

/-- Where the best match is long, it is the next token. -/
theorem greedyFrom_match {bits : List Bool} {i : Nat} (inside : i < bits.length)
    (long : MIN_MATCH_LEN ≤ (longestBefore bits i i).2) :
    greedyFrom bits i = ⟨i, (longestBefore bits i i).1, (longestBefore bits i i).2⟩ ::
      greedyFrom bits (i + (longestBefore bits i i).2) := by
  rw [greedyFrom, if_pos inside, if_pos long]

/-- Where the best match is short, the greedy parse goes on at the next bit. -/
theorem greedyFrom_skip {bits : List Bool} {i : Nat} (inside : i < bits.length)
    (short : (longestBefore bits i i).2 < MIN_MATCH_LEN) :
    greedyFrom bits i = greedyFrom bits (i + 1) := by
  rw [greedyFrom, if_pos inside, if_neg (Nat.not_le.mpr short)]

/-- A match of the greedy parse repeats earlier bits. -/
theorem longestBefore_repeats {bits : List Bool} {i : Nat}
    (long : MIN_MATCH_LEN ≤ (longestBefore bits i i).2) :
    Token.Repeats bits ⟨i, (longestBefore bits i i).1, (longestBefore bits i i).2⟩ := by
  have positive : 0 < MIN_MATCH_LEN := by decide
  have later : 0 < i := by
    rcases Nat.eq_zero_or_pos i with rfl | later
    · simp only [longestBefore] at long
      omega
    · exact later
  obtain ⟨before, same⟩ := longestBefore_at bits i later
  obtain ⟨_, inside, equal⟩ := le_commonLength_iff.mp same.ge
  rw [List.length_drop] at inside
  exact ⟨before, by simp only; omega, by simp only; omega, equal⟩

/-- The greedy parse goes through all bits. -/
theorem greedyFrom_parses {bits : List Bool} (i last : Nat) (later : last ≤ i)
    (inside : i ≤ bits.length) : Parses bits last (greedyFrom bits i) := by
  induction i using greedyFrom.induct bits generalizing last with
  | case1 i before long ih =>
      have repeats := longestBefore_repeats long
      rw [greedyFrom_match before long]
      exact ⟨later, repeats, ih _ (Nat.le_refl _) repeats.inside⟩
  | case2 i before short ih =>
      rw [greedyFrom_skip before (Nat.not_le.mp short)]
      exact ih last (by omega) before
  | case3 i behind =>
      rw [greedyFrom_end (Nat.not_lt.mp behind)]
      exact later.trans inside

/-- The greedy tokens parse the bits. -/
theorem greedyTokens_parses (bits : List Bool) : Parses bits 0 (greedyTokens bits) :=
  greedyFrom_parses 0 0 (Nat.le_refl _) (Nat.zero_le _)

/-- From position `z` on all bits are zero, and the bit before it is not. -/
structure ZerosFrom (bits : List Bool) (z : Nat) : Prop where
  zeros : ∀ j, z ≤ j → j < bits.length → bits[j]? = some false
  edge : ∀ j, j + 1 = z → bits[j]? = some true

/-- Zeros behind some bits start among these or right behind them. -/
theorem exists_zerosFrom (before : List Bool) (k : Nat) :
    ∃ z ≤ before.length, ZerosFrom (before ++ List.replicate k false) z := by
  induction before using List.reverseRecOn generalizing k with
  | nil =>
      refine ⟨0, Nat.le_refl _, fun j _ inside => ?_, fun j impossible => by omega⟩
      rw [List.nil_append, List.length_replicate] at inside
      rw [List.nil_append, List.getElem?_replicate_of_lt inside]
  | append_singleton before bit ih =>
      cases bit with
      | false =>
          obtain ⟨z, le, zeros⟩ := ih (k + 1)
          refine ⟨z, by rw [List.length_append]; omega, ?_⟩
          rwa [List.append_assoc, List.singleton_append, ← List.replicate_succ]
      | true =>
          refine ⟨_, Nat.le_refl _, fun j later inside => ?_, fun j last => ?_⟩
          · rw [List.length_append, List.length_replicate] at inside
            rw [List.getElem?_append_right later, List.getElem?_replicate_of_lt (by omega)]
          · rw [List.length_append, List.length_singleton, Nat.add_right_cancel_iff] at last
            subst last
            simp

section Zeros
variable {bits : List Bool} {z : Nat}

/-- From a later place on they are zeros too. -/
theorem ZerosFrom.drop (zeros : ZerosFrom bits z) {j : Nat} (later : z ≤ j) :
    bits.drop j = List.replicate (bits.length - j) false := by
  apply List.ext_getElem (by simp)
  intro index inside _
  rw [List.length_drop] at inside
  rw [List.getElem_drop, List.getElem_replicate]
  have bit := zeros.zeros (j + index) (by omega) (by omega)
  rwa [List.getElem?_eq_getElem (by omega), Option.some.injEq] at bit

/-- A common prefix of a position before the zeros ends before them. -/
theorem ZerosFrom.commonLength_lt (zeros : ZerosFrom bits z) {s i : Nat} (earlier : s < i)
    (before : i ≤ z) : commonLength (bits.drop s) (bits.drop i) < z := by
  by_contra long
  obtain ⟨_, inside, same⟩ := le_commonLength_iff.mp (Nat.not_lt.mp long)
  rw [List.length_drop] at inside
  have bit := congrArg (fun part => part[z - 1 - s]?) same
  rw [List.getElem?_take_of_lt (by omega), List.getElem?_take_of_lt (by omega), List.getElem?_drop,
    List.getElem?_drop, show s + (z - 1 - s) = z - 1 by omega, zeros.edge (z - 1) (by omega),
    zeros.zeros _ (by omega) (by omega)] at bit
  cases bit

/-- Behind a short start the zeros are one match. -/
theorem ZerosFrom.greedyTokens_eq (zeros : ZerosFrom bits z) (small : z ≤ MIN_MATCH_LEN)
    (room : z + 1 + MIN_MATCH_LEN ≤ bits.length) :
    greedyTokens bits = [⟨z + 1, z, bits.length - (z + 1)⟩] := by
  have skipped : ∀ i ≤ z, greedyFrom bits i = greedyFrom bits (i + 1) := by
    intro i before
    have short : (longestBefore bits i i).2 ≤ MIN_MATCH_LEN - 1 := longestBefore_le fun s earlier => by
      have := zeros.commonLength_lt earlier before
      omega
    exact greedyFrom_skip (by omega) (Nat.lt_of_le_of_lt short (by decide))
  have reached : ∀ i ≤ z + 1, greedyFrom bits 0 = greedyFrom bits i := by
    intro i
    induction i with
    | zero => exact fun _ => rfl
    | succ i ih =>
        intro before
        rw [ih (by omega), skipped i (by omega)]
  have most : ∀ s < z + 1, commonLength (bits.drop s) (bits.drop (z + 1)) ≤ bits.length - (z + 1) := by
    intro s _
    have bound := commonLength_le_right (bits.drop s) (bits.drop (z + 1))
    rwa [List.length_drop] at bound
  have repeated : bits.length - (z + 1) ≤ commonLength (bits.drop z) (bits.drop (z + 1)) := by
    refine le_commonLength_iff.mpr ⟨by rw [List.length_drop]; omega, by rw [List.length_drop], ?_⟩
    rw [zeros.drop (Nat.le_refl z), zeros.drop (Nat.le_succ z), List.take_replicate, List.take_replicate]
    congr 1
    omega
  have positive : 0 < MIN_MATCH_LEN := by decide
  have longest : longestBefore bits (z + 1) (z + 1) = (z, bits.length - (z + 1)) :=
    longestBefore_eq (Nat.lt_succ_self z) (Nat.le_antisymm (most z (Nat.lt_succ_self z)) repeated) most
      fun j after before => by omega
  rw [greedyTokens, reached (z + 1) (Nat.le_refl _), greedyFrom_match (by omega)
    (by rw [longest]; simp only; omega), longest, greedyFrom_end (by simp only; omega)]

end Zeros

namespace LzContext
variable {context : LzContext}

/-- Each bit has a cell. -/
def Owned (context : LzContext) : Prop :=
  ∀ i < context.bits.length, ∃ m, context.metas[i]? = some m ∧ m.cellId.isSome = true

/-- A turn of the search keeps the longer match. -/
theorem bestMatch_step (owned : context.Owned) {best : Option (Nat × Nat)} {m : Match}
    (inside : m.start < context.bits.length) :
    (do
      let startMeta ← context.metas[m.start]?
      if startMeta.cellId.isSome ∧ m.len > best.elim 0 Prod.snd then some (some (m.start, m.len))
      else some best) =
    some (if m.len > best.elim 0 Prod.snd then some (m.start, m.len) else best) := by
  obtain ⟨startMeta, look, owner⟩ := owned m.start inside
  rw [look]
  simp only [Option.bind_eq_bind, Option.bind_some, owner, true_and]
  split_ifs <;> rfl

/-- The first match is the longest. -/
theorem bestMatch_eq (owned : context.Owned) {matches_ : List Match}
    (inside : ∀ m ∈ matches_, m.start < context.bits.length ∧ 0 < m.len)
    (decreasing : matches_.Pairwise fun first second => second.len < first.len) :
    context.bestMatch matches_ = some (matches_.head?.map fun best => (best.start, best.len)) := by
  cases matches_ with
  | nil => rfl
  | cons best rest =>
      have stays : ∀ rest : List Match, (∀ m ∈ rest, m.start < context.bits.length ∧ m.len < best.len) →
          rest.foldlM (fun best m => do
            let startMeta ← context.metas[m.start]?
            if startMeta.cellId.isSome ∧ m.len > best.elim 0 Prod.snd then some (some (m.start, m.len))
            else some best) (some (best.start, best.len)) = some (some (best.start, best.len)) := by
        intro rest shorter
        induction rest with
        | nil => rfl
        | cons m rest ih =>
            obtain ⟨before, less⟩ := shorter m (by simp)
            have kept : ¬ m.len > (some (best.start, best.len)).elim 0 Prod.snd := by
              simp only [Option.elim_some]
              omega
            rw [List.foldlM_cons, bestMatch_step owned before, if_neg kept, Option.bind_eq_bind,
              Option.bind_some]
            exact ih fun m member => shorter m (by simp [member])
      obtain ⟨before, positive⟩ := inside best (by simp)
      have taken : best.len > (none : Option (Nat × Nat)).elim 0 Prod.snd := positive
      rw [bestMatch, List.foldlM_cons, bestMatch_step owned before, if_pos taken, Option.bind_eq_bind,
        Option.bind_some]
      exact stays rest fun m member =>
        ⟨(inside m (by simp [member])).1, List.rel_of_pairwise_cons decreasing member⟩

/-- The main loop of `run_lz` takes the tokens of the greedy parse. -/
theorem lzLoop_greedy (owned : context.Owned) {view : View} {word : Nat → List Nat}
    (represents : Represents 2 (context.bits.map Bool.toNat).reverse view word) (fuel i k : Nat)
    (suffAut : SuffAut) (state : LzState)
    (ready : Ready 2 (context.bits.map Bool.toNat) view word MIN_MATCH_LEN k suffAut) (asked : k ≤ i)
    (inside : i ≤ context.bits.length) (enough : context.bits.length < i + fuel) :
    context.lzLoop fuel i suffAut state =
      (greedyFrom context.bits i).foldlM context.runToken state := by
  induction fuel generalizing i k suffAut state with
  | zero => omega
  | succ fuel ih =>
      rw [lzLoop]
      by_cases before : i < context.bits.length
      · obtain ⟨m, look, owner⟩ := owned i before
        obtain ⟨res, next, found, finds, ready'⟩ := getMatch_spec represents ready asked (by simpa)
        have injective : Function.Injective Bool.toNat := by decide
        have starts : ∀ m ∈ res, m.start < context.bits.length ∧ 0 < m.len := by
          intro m member
          obtain ⟨earlier, long, _, _⟩ := finds.sound m member
          exact ⟨by omega, Nat.lt_of_lt_of_le (by decide) long⟩
        have best := bestMatch_eq owned starts finds.decreasing
        rw [if_pos before, look]
        simp only [Option.bind_eq_bind, Option.bind_some, owner, if_true, found, best]
        cases res with
        | nil =>
            have short := finds.longestBefore_nil (by decide)
            rw [longestBefore_map injective] at short
            rw [greedyFrom_skip before short]
            exact ih (i + 1) (i + 1) next state ready' (Nat.le_refl _) before (by omega)
        | cons first rest =>
            have same := finds.longestBefore_cons
            rw [longestBefore_map injective] at same
            obtain ⟨_, long, fits, _⟩ := finds.sound first (by simp)
            rw [List.length_map] at fits
            have positive := (starts first (by simp)).2
            rw [greedyFrom_match before (by rw [same]; exact long), same, List.foldlM_cons]
            simp only [List.head?_cons, Option.map_some]
            congr 1
            funext state
            exact ih (i + first.len) (i + 1) next state ready' (by omega) fits (by omega)
      · rw [if_neg before, greedyFrom_end (Nat.not_lt.mp before), List.foldlM_nil]
        rfl

end LzContext

section Context
variable {tables : Tables} {coders : Coders tables} {myCells : List MyCell}

variable (coders) in
/-- Each bit of the serialised bag has a cell. -/
theorem lzContext_owned (valid : WritableCells myCells) : (lzContext coders myCells).Owned := by
  intro i inside
  obtain ⟨_, look, _⟩ := context_at coders valid inside
  exact ⟨_, look, rfl⟩

/-- `run_lz` stores the tokens of the greedy parse. -/
theorem runLzBits_eq (valid : WritableCells myCells) :
    runLzBits tables (streamBits coders myCells) (streamMetas coders myCells) = some
      ((BitPtr.start (8 * (((streamBits coders myCells).length / 8 + 1) * 4 / 3))).push
        ((lzContext coders myCells).payload (greedyTokens (streamBits coders myCells)) ++ [true])) := by
  have letters : ∀ c ∈ (streamBits coders myCells).map Bool.toNat, c < 2 := by
    intro c member
    obtain ⟨bit, _, rfl⟩ := List.mem_map.mp member
    exact Bool.toNat_lt bit
  obtain ⟨automaton, view, word, prepared, represents, ready⟩ :=
    prepareMatches_ready (m := MIN_MATCH_LEN) letters
  have greedy := LzContext.lzLoop_greedy (lzContext_owned coders valid) represents
    ((streamBits coders myCells).length + 1) 0 0 automaton (lzContext coders myCells).begin ready
    (Nat.le_refl _) (Nat.zero_le _) (show (streamBits coders myCells).length < _ by omega)
  rw [← runTokens_eq valid (greedyTokens_parses _), runLzBits, Option.bind_eq_bind]
  simp only [Option.bind_eq_bind]
  rw [← Option.bind_assoc, prepared, Option.bind_some, build_eq valid, Option.bind_some, greedy]
  rfl

end Context

/-- The output of a pointer that stayed inside its buffer. -/
theorem lzOutput_eq (ptr : BitPtr) :
    lzOutput ptr = if ptr.inside = true then some (storedBytes ptr) else none := by
  rw [lzOutput, check]
  split_ifs <;> rfl

/-- In a large enough buffer the output of `run_lz`, or that of any other parse of the bits, restores the bits
and the cells. -/
theorem runLz_restores {myCells : List MyCell} (valid : ValidCells myCells) :
    ∃ output metas bits context, myCellsToBitStr sourceTables myCells = some (output, metas) ∧
      bytesStrToBitStr output true = some bits ∧
      LzContext.build sourceTables bits metas = some context ∧
      (∃ ptr, runLzBits sourceTables bits metas = some ptr ∧
        runLz sourceTables bits metas = (if ptr.inside = true then some (storedBytes ptr) else none) ∧
        Restores sourceTables bits myCells (storedBytes ptr)) ∧
      ∀ tokens, Parses bits 0 tokens → ∃ ptr, context.runTokens tokens = some ptr ∧
        Restores sourceTables bits myCells (storedBytes ptr) := by
  obtain ⟨coders⟩ := sourceTables_valid.coders
  have writable := valid.toWritableCells
  refine ⟨_, _, _, lzContext coders myCells, myCellsToBitStr_eq coders writable.storable,
    bytesStrToBitStr_streamBits coders valid, build_eq writable, ⟨_, runLzBits_eq writable, ?_, ?_⟩,
    fun tokens parses => ⟨_, runTokens_eq writable parses, ?_⟩⟩
  · rw [runLz, runLzBits_eq writable, Option.bind_eq_bind, Option.bind_some, lzOutput_eq]
  · rw [storedBytes_eq]
    exact restores_payload valid (greedyTokens_parses _)
  · rw [storedBytes_eq]
    exact restores_payload valid parses

theorem runLz_restores_pair :
    ∃ output metas bits context, myCellsToBitStr sourceTables pairCells = some (output, metas) ∧
      bytesStrToBitStr output true = some bits ∧
      LzContext.build sourceTables bits metas = some context ∧
      (∃ ptr, runLzBits sourceTables bits metas = some ptr ∧
        runLz sourceTables bits metas = (if ptr.inside = true then some (storedBytes ptr) else none) ∧
        Restores sourceTables bits pairCells (storedBytes ptr)) ∧
      ∀ tokens, Parses bits 0 tokens → ∃ ptr, context.runTokens tokens = some ptr ∧
        Restores sourceTables bits pairCells (storedBytes ptr) :=
  runLz_restores pairCells_valid

end CellBag.Serializator
