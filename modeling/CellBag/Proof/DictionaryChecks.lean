import CellBag.Proof.CntOccurrences
import CellBag.Proof.Selection

/-!
The checks of `build_dict` that the source has in comments: its counts are those of `cnt_occurrences`.
-/

namespace CellBag.SuffixAutomaton
open Factors

/-- A restored string as `cnt_occurrences` takes it. -/
def bytesOf (w : List Nat) : List UInt8 := w.map UInt8.ofNat

section Bytes
variable {w t : List Nat}

theorem toNat_ofNat {C c : Nat} (bytes : C ≤ 256) (letter : c < C) : (UInt8.ofNat c).toNat = c := by
  rw [UInt8.toNat_ofNat']
  omega

/-- On short strings of bytes the Z-function counts the occurrences. -/
theorem cntOccurrences_bytesOf {C : Nat} (bytes : C ≤ 256) (nonempty : w ≠ [])
    (letters : ∀ c ∈ t, c < C) (lettersWord : ∀ c ∈ w, c < C) (short : w.length + t.length < 2 ^ 32) :
    cntOccurrences (bytesOf w) (bytesOf t) = some (occurrences t w) := by
  have size : (bytesOf w ++ bytesOf t).length = w.length + t.length := by simp [bytesOf]
  have whole : (bytesOf w ++ bytesOf t).length % 2 ^ 32 = (bytesOf w ++ bytesOf t).length :=
    Nat.mod_eq_of_lt (size ▸ short)
  have nonemptyBytes : bytesOf w ≠ [] := by simpa [bytesOf] using nonempty
  obtain ⟨uncut, inside⟩ := cutsNothing_of_short (size ▸ short)
  rw [cntOccurrences_eq_countP _ nonemptyBytes,
    (count_iff (Nat.mod_le _ _) nonemptyBytes uncut).mpr inside]
  have inText : ∀ c ∈ t, UInt8.toNat (UInt8.ofNat c) = c :=
    fun c member => toNat_ofNat bytes (letters c member)
  have inWord : ∀ c ∈ w, UInt8.toNat (UInt8.ofNat c) = c :=
    fun c member => toNat_ofNat bytes (lettersWord c member)
  exact congrArg some (occurrences_map inText inWord)

end Bytes

/-- The counts of the nodes are those of `cnt_occurrences` in the whole training data, and it finds no
selected word in another one. -/
theorem buildDict_counts (sort : StdSort) (C : Nat) (strings : List (List Nat)) (given : strings ≠ [])
    (nonempty : ∀ data ∈ strings, data ≠ []) (letters : ∀ data ∈ strings, ∀ c ∈ data, c < C)
    (bytes : C ≤ 256) (short : 2 * strings.flatten.length < 2 ^ 32) (maxDictSize minMatchLength : Nat)
    (bound : maxDictSize < 2 ^ 31) (long : 2 ≤ minMatchLength) :
    ∃ dictionary order cntOccured froms cntDiffStrings selection allData,
      Dictionary.train C strings = some dictionary ∧
      topSort sort dictionary.base = some order ∧
      countOccured dictionary.base order = some cntOccured ∧
      revTo dictionary.base.nodes = some froms ∧
      countDiffStrings dictionary = some cntDiffStrings ∧
      (candidates sort dictionary cntOccured cntDiffStrings maxDictSize minMatchLength).foldlM
          (selectCandidate dictionary.base.nodes froms maxDictSize)
          (Selection.start dictionary.base.nodes.length) = some selection ∧
      restoreLongestStr dictionary.base.nodes dictionary.base.root froms dictionary.base.last =
        some allData ∧
      (∀ v, 2 ≤ v → v < dictionary.base.nodes.length → ∃ cur,
        restoreLongestStr dictionary.base.nodes dictionary.base.root froms v = some cur ∧
        cntOccurrences (bytesOf cur) (bytesOf allData) = cntOccured[v]?) ∧
      ∀ v ∈ selection.dictV, ∀ u ∈ selection.dictV, v ≠ u → ∃ cur another,
        restoreLongestStr dictionary.base.nodes dictionary.base.root froms v = some cur ∧
        restoreLongestStr dictionary.base.nodes dictionary.base.root froms u = some another ∧
        cntOccurrences (bytesOf cur) (bytesOf another) = some 0 := by
  obtain ⟨⟨nodes, root, last⟩, view, word, order, cntOccured, cntDiffStrings, train, built, sorted, _,
    _, occured, marked, many, counts, _⟩ := train_counts sort given nonempty letters
  have each : ∀ c ∈ strings.flatten, c < C := List.forall_mem_flatten.mpr letters
  have lastLive := built.live
  have lastWord := built.last
  obtain ⟨rfl, rfl, _, _, represents⟩ := built
  obtain ⟨distinct, sized⟩ := represents.candidates_spec sort strings cntOccured cntDiffStrings 1 last
    maxDictSize long
  obtain ⟨killed, dictV, ran, state⟩ := represents.select_run bound distinct sized
  have inText {v : Nat} (live : view.Live v) : ∀ c ∈ word v, c < C := fun c member =>
    each c ((represents.longest v live).occurs.subset member)
  have size {v : Nat} (live : view.Live v) : (word v).length ≤ strings.flatten.length :=
    (represents.longest v live).occurs.length_le
  refine ⟨_, order, cntOccured, _, cntDiffStrings, _, strings.flatten, train, sorted, occured,
    represents.revTo_eq, marked, by rw [View.length_nodes]; exact ran, ?_, ?_, ?_⟩
  · rw [represents.restoreLongestStr_eq each lastLive]
    exact congrArg some lastWord
  · intro v second inside
    have live : view.Live v := ⟨by omega, by simpa using inside⟩
    have proper : word v ≠ [] := represents.ne_nil live (by omega)
    refine ⟨word v, represents.restoreLongestStr_eq each live, ?_⟩
    rw [cntOccurrences_bytesOf bytes proper each (inText live) (by have := size live; omega),
      counts v live, occuredCount, if_neg (by omega), occurrences_eq proper]
  · intro v inDict u inDictU different
    obtain ⟨live, inner, -, -⟩ := state.member v inDict
    have liveU := (state.member u inDictU).1
    have proper : word v ≠ [] := represents.ne_nil live inner
    have unnested : Unnested ⟨view.nodes C, 1, last⟩ _ maxDictSize _ := state.unnested represents each
    obtain ⟨cur, another, restored, restoredU, apart⟩ := unnested.apart v inDict u inDictU different
    obtain rfl := Option.some.inj ((represents.restoreLongestStr_eq each live).symm.trans restored)
    obtain rfl := Option.some.inj ((represents.restoreLongestStr_eq each liveU).symm.trans restoredU)
    refine ⟨_, _, restored, restoredU, ?_⟩
    rw [cntOccurrences_bytesOf bytes proper (inText liveU) (inText live)
      (by have := size live; have := size liveU; omega), occurrences_eq_zero proper apart]

/-- Two strings with the same two halves. -/
def swappedStrings : List (List Nat) := [[0, 0, 1, 1], [1, 1, 0, 0]]

/-- Both halves, the words of the nodes 3 and 8, are selected. -/
theorem buildDict_counts_swapped :
    ∃ dictionary order cntOccured froms cntDiffStrings selection allData cur another,
      Dictionary.train 2 swappedStrings = some dictionary ∧
      topSort StdSort.insertion dictionary.base = some order ∧
      countOccured dictionary.base order = some cntOccured ∧
      revTo dictionary.base.nodes = some froms ∧
      countDiffStrings dictionary = some cntDiffStrings ∧
      (candidates StdSort.insertion dictionary cntOccured cntDiffStrings 12 2).foldlM
          (selectCandidate dictionary.base.nodes froms 12)
          (Selection.start dictionary.base.nodes.length) = some selection ∧
      restoreLongestStr dictionary.base.nodes dictionary.base.root froms dictionary.base.last =
        some allData ∧
      (∀ v, 2 ≤ v → v < dictionary.base.nodes.length → ∃ word,
        restoreLongestStr dictionary.base.nodes dictionary.base.root froms v = some word ∧
        cntOccurrences (bytesOf word) (bytesOf allData) = cntOccured[v]?) ∧
      selection.dictV = [3, 8] ∧
      restoreLongestStr dictionary.base.nodes dictionary.base.root froms 3 = some cur ∧
      restoreLongestStr dictionary.base.nodes dictionary.base.root froms 8 = some another ∧
      cntOccurrences (bytesOf cur) (bytesOf another) = some 0 := by
  obtain ⟨dictionary, order, cntOccured, froms, cntDiffStrings, selection, allData, train, sorted, occured,
    back, marked, ran, whole, counts, apart⟩ := buildDict_counts StdSort.insertion 2 swappedStrings
      (by decide) (by decide) (by decide) (by decide) (by decide) 12 2 (by decide) (by decide)
  have picked : (do
      let dictionary ← Dictionary.train 2 swappedStrings
      let order ← topSort StdSort.insertion dictionary.base
      let cntOccured ← countOccured dictionary.base order
      let froms ← revTo dictionary.base.nodes
      let cntDiffStrings ← countDiffStrings dictionary
      let selection ← (candidates StdSort.insertion dictionary cntOccured cntDiffStrings 12 2).foldlM
        (selectCandidate dictionary.base.nodes froms 12)
        (Selection.start dictionary.base.nodes.length)
      some selection.dictV) = some [3, 8] := by decide +kernel
  simp only [train, sorted, occured, back, marked, ran, Option.bind_eq_bind, Option.bind_some,
    Option.some.injEq] at picked
  obtain ⟨cur, another, restored, restoredU, none⟩ :=
    apart 3 (by simp [picked]) 8 (by simp [picked]) (by decide)
  exact ⟨dictionary, order, cntOccured, froms, cntDiffStrings, selection, allData, cur, another, train,
    sorted, occured, back, marked, ran, whole, counts, picked, restored, restoredU, none⟩

end CellBag.SuffixAutomaton
