import LabelGraph.Proofs.Store.Symbols
import Mathlib.Algebra.GroupWithZero.Nat
import Mathlib.Data.List.Induction
import Mathlib.Data.List.Nodup
import Mathlib.Data.List.TakeWhile

/-!
A symbol table told from the calls that made it. The words of the calls without their
repetitions are the words of the table, up to its capacity. A word is known by the number of
other words that were called for before it, from its first call on and for good.
-/

namespace LabelGraph

namespace SymbolTable

def afterCall (t : SymbolTable) (word : String) : SymbolTable :=
  match intern word t with
  | .ok _ u => u
  | .error _ u => u

def afterCalls (words : List String) : SymbolTable := words.foldl afterCall empty

/-- The words of the calls that the table takes in: the first ones without repetition. -/
def stored (words : List String) : List String := words.eraseDups.take indexCapacity

def firstHandle (words : List String) (word : String) : Symbol :=
  ⟨(words.takeWhile (· ≠ word)).eraseDups.length⟩

/-! The words of the calls. -/

section Words

variable {words : List String} {word : String}

theorem eraseDups_concat (words : List String) (word : String) :
    (words ++ [word]).eraseDups =
      if word ∈ words then words.eraseDups else words.eraseDups ++ [word] := by
  rw [List.eraseDups_append]
  by_cases hin : word ∈ words <;> simp [List.removeAll, hin, List.eraseDups_cons]

/-- A new word is taken in if there is room for it. -/
theorem stored_new (hnew : word ∉ stored words) (hroom : (stored words).length < indexCapacity) :
    word ∉ words ∧ stored words = words.eraseDups ∧
      stored (words ++ [word]) = stored words ++ [word] := by
  have hall : words.eraseDups.length < indexCapacity := by
    rw [stored, List.length_take] at hroom
    omega
  have hstored : stored words = words.eraseDups := List.take_of_length_le (Nat.le_of_lt hall)
  have hword : word ∉ words := by
    intro hin
    apply hnew
    rw [hstored]
    exact List.mem_eraseDups.2 hin
  refine ⟨hword, hstored, ?_⟩
  rw [hstored, stored, eraseDups_concat, if_neg hword, List.take_of_length_le]
  simpa using Nat.succ_le_of_lt hall

/-- Otherwise the words stay as they are. -/
theorem stored_same (h : word ∈ stored words ∨ indexCapacity ≤ (stored words).length) :
    stored (words ++ [word]) = stored words := by
  rw [stored, eraseDups_concat]
  split
  · rfl
  · next hword =>
    have hfull : indexCapacity ≤ words.eraseDups.length := by
      rcases h with hin | hfull
      · exact absurd (List.mem_eraseDups.1 (List.mem_of_mem_take hin)) hword
      · exact Nat.le_trans hfull (List.length_take_le' _ _)
    rw [List.take_append_of_le_length hfull, stored]

theorem stored_length (words : List String) : (stored words).length ≤ indexCapacity :=
  List.length_take_le _ _

/-- A word stands behind the different words before its first call, or would stand there. -/
theorem idxOf_eraseDups (words : List String) (word : String) :
    words.eraseDups.idxOf word = (firstHandle words word).index := by
  have hbefore : word ∉ (words.takeWhile (· ≠ word)).eraseDups := by
    intro hin
    have hne := List.mem_takeWhile_imp (List.mem_eraseDups.1 hin)
    simp at hne
  have hsplit : words.takeWhile (· ≠ word) ++ words.dropWhile (· ≠ word) = words :=
    List.takeWhile_append_dropWhile
  have hrest : ((words.dropWhile (· ≠ word)).removeAll
      (words.takeWhile (· ≠ word))).eraseDups.idxOf word = 0 := by
    cases hdrop : words.dropWhile (· ≠ word) with
    | nil => rfl
    | cons other rest =>
      have hother : other = word := by
        have hhead := List.head?_dropWhile_not (· ≠ word) words
        rw [hdrop] at hhead
        simpa using hhead
      have hnot : word ∉ words.takeWhile (· ≠ word) := by
        simpa using hbefore
      have hkept : (other :: rest).removeAll (words.takeWhile (· ≠ word)) =
          word :: rest.removeAll (words.takeWhile (· ≠ word)) := by
        rw [hother]
        exact List.filter_cons_of_pos (by simpa using hnot)
      rw [hkept, List.eraseDups_cons, List.idxOf_cons_self]
  conv_lhs => rw [← hsplit]
  rw [List.eraseDups_append, List.idxOf_append_of_notMem hbefore, hrest, Nat.add_zero,
    firstHandle]

theorem idxOf_stored (h : word ∈ stored words) :
    (stored words).idxOf word = (firstHandle words word).index := by
  rw [← idxOf_eraseDups]
  conv_rhs => rw [← List.take_append_drop indexCapacity words.eraseDups]
  exact (List.idxOf_append_of_mem h).symm

end Words

/-! What a table holds. -/

structure Lists (t : SymbolTable) (l : List String) : Prop where
  words : t.words = l.toArray
  valid : t.Valid
  bytes : t.bytes = (l.map String.utf8ByteSize).sum

namespace Lists

variable {t : SymbolTable} {l : List String} {word : String} {s : Symbol}

theorem empty : SymbolTable.empty.Lists [] where
  words := rfl
  valid := empty_valid
  bytes := rfl

theorem size_eq (h : t.Lists l) : t.size = l.length := by
  rw [size, h.words, List.size_toArray]

theorem spells_iff (h : t.Lists l) : t.Spells s word ↔ l[s.index]? = some word := by
  rw [Spells, h.words, List.getElem?_toArray]

theorem nodup (h : t.Lists l) : l.Nodup := by
  rw [List.nodup_iff_getElem?_ne_getElem?]
  intro i j hij hj heq
  have hlater : t.Spells ⟨j⟩ l[j] := h.spells_iff.2 (List.getElem?_eq_getElem hj)
  have hearlier : t.Spells ⟨i⟩ l[j] := h.spells_iff.2 (heq.trans (List.getElem?_eq_getElem hj))
  have hsame := h.valid.inj hearlier hlater
  exact Nat.ne_of_lt hij (congrArg Symbol.index hsame)

theorem get?_of_mem (h : t.Lists l) (hin : word ∈ l) : t.get? word = some ⟨l.idxOf word⟩ :=
  (h.valid word _).2 (h.spells_iff.2 (List.getElem?_idxOf hin))

theorem get?_of_not_mem (h : t.Lists l) (hout : word ∉ l) : t.get? word = none := by
  rw [Option.eq_none_iff_forall_ne_some]
  intro s hs
  exact hout (List.mem_of_getElem? (h.spells_iff.1 ((h.valid word s).1 hs)))

theorem toList_eq (h : t.Lists l) : t.toList = l.zipIdx.map fun (word, i) => (⟨i⟩, word) := by
  rw [toList, h.words]

theorem resolve_error_iff (h : t.Lists l) (cause : StoreError) :
    t.resolve s = .error cause ↔
      l.length ≤ s.index ∧ cause = .invalidIndex .symbol s.index l.length := by
  rw [resolve, h.size_eq, h.words, List.getElem?_toArray]
  by_cases hinside : s.index < l.length
  · rw [List.getElem?_eq_getElem hinside]
    simp [Nat.not_le.2 hinside]
  · rw [List.getElem?_eq_none (Nat.le_of_not_lt hinside)]
    simp [Nat.not_lt.1 hinside, eq_comm]

/-! The three cases of a call. -/

theorem intern_old (h : t.Lists l) (hin : word ∈ l) : intern word t = .ok ⟨l.idxOf word⟩ t := by
  rw [intern, h.get?_of_mem hin]

theorem intern_new (h : t.Lists l) (hout : word ∉ l) (hroom : l.length < indexCapacity) :
    ∃ u, intern word t = .ok ⟨l.length⟩ u ∧ u.Lists (l ++ [word]) := by
  have hcall : intern word t = .ok ⟨t.size⟩
      ⟨t.words.push word, t.handles.insert word ⟨t.size⟩, t.bytes + word.utf8ByteSize⟩ := by
    simp only [intern, h.get?_of_not_mem hout]
    rw [if_pos (h.size_eq ▸ hroom)]
  refine ⟨_, h.size_eq ▸ hcall, ?_, (intern_ok h.valid hcall).1, ?_⟩
  · rw [h.words, List.push_toArray]
  · rw [h.bytes, List.map_append, List.sum_append]
    rfl

theorem intern_full (h : t.Lists l) (hout : word ∉ l) (hfull : indexCapacity ≤ l.length) :
    intern word t = .error (.capacityExceeded .symbol indexCapacity) t := by
  simp only [intern, h.get?_of_not_mem hout]
  rw [if_neg (h.size_eq ▸ Nat.not_lt.2 hfull)]

end Lists

/-! The calls. -/

variable {words : List String} {word : String} {t u : SymbolTable} {s : Symbol}

theorem afterCalls_concat (words : List String) (word : String) :
    afterCalls (words ++ [word]) = (afterCalls words).afterCall word := by
  rw [afterCalls, List.foldl_append]
  rfl

theorem afterCall_ok (h : intern word t = .ok s u) : t.afterCall word = u := by
  rw [afterCall, h]

theorem afterCall_error {cause : StoreError} (h : intern word t = .error cause u) :
    t.afterCall word = u := by
  rw [afterCall, h]

/-- After each call the table holds the words that there was room for. -/
theorem afterCalls_lists (words : List String) : (afterCalls words).Lists (stored words) := by
  induction words using List.reverseRecOn with
  | nil => exact .empty
  | append_singleton words word ih =>
    rw [afterCalls_concat]
    by_cases hin : word ∈ stored words
    · rw [afterCall_ok (ih.intern_old hin), stored_same (.inl hin)]
      exact ih
    · by_cases hroom : (stored words).length < indexCapacity
      · obtain ⟨u, hcall, hu⟩ := ih.intern_new hin hroom
        rw [afterCall_ok hcall, (stored_new hin hroom).2.2]
        exact hu
      · have hfull := Nat.not_lt.1 hroom
        rw [afterCall_error (ih.intern_full hin hfull), stored_same (.inr hfull)]
        exact ih

/-- A call gives the handle of the word if the table has the word or room for it. -/
theorem intern_afterCalls (h : word ∈ stored words ∨ (stored words).length < indexCapacity) :
    intern word (afterCalls words) =
      .ok (firstHandle words word) (afterCalls (words ++ [word])) := by
  have ht := afterCalls_lists words
  rw [afterCalls_concat]
  by_cases hin : word ∈ stored words
  · have hcall := ht.intern_old hin
    rw [idxOf_stored hin] at hcall
    rw [afterCall_ok hcall, hcall]
  · have hroom := h.resolve_left hin
    obtain ⟨u, hcall, -⟩ := ht.intern_new hin hroom
    obtain ⟨hword, hall, -⟩ := stored_new hin hroom
    have hhandle : (stored words).length = (firstHandle words word).index := by
      rw [← idxOf_eraseDups, hall]
      exact (List.idxOf_eq_length (by simpa using hword)).symm
    rw [hhandle] at hcall
    rw [afterCall_ok hcall, hcall]

theorem intern_ok_iff (words : List String) (word : String) (s : Symbol) (u : SymbolTable) :
    intern word (afterCalls words) = .ok s u ↔
      (word ∈ stored words ∨ (stored words).length < indexCapacity) ∧
        s = firstHandle words word ∧ u = afterCalls (words ++ [word]) := by
  constructor
  · intro hcall
    have hroom : word ∈ stored words ∨ (stored words).length < indexCapacity := by
      by_contra hnot
      obtain ⟨hout, hfull⟩ := not_or.1 hnot
      cases hcall.symm.trans ((afterCalls_lists words).intern_full hout (Nat.not_lt.1 hfull))
    cases hcall.symm.trans (intern_afterCalls hroom)
    exact ⟨hroom, rfl, rfl⟩
  · rintro ⟨hroom, rfl, rfl⟩
    exact intern_afterCalls hroom

theorem intern_error_iff (words : List String) (word : String) (cause : StoreError)
    (u : SymbolTable) :
    intern word (afterCalls words) = .error cause u ↔
      (word ∉ stored words ∧ (stored words).length = indexCapacity) ∧
        cause = .capacityExceeded .symbol indexCapacity ∧ u = afterCalls words := by
  have ht := afterCalls_lists words
  constructor
  · intro hcall
    have hfull : ¬ (word ∈ stored words ∨ (stored words).length < indexCapacity) := by
      intro hroom
      cases hcall.symm.trans (intern_afterCalls hroom)
    obtain ⟨hout, hfull⟩ := not_or.1 hfull
    cases hcall.symm.trans (ht.intern_full hout (Nat.not_lt.1 hfull))
    exact ⟨⟨hout, Nat.le_antisymm (stored_length words) (Nat.not_lt.1 hfull)⟩, rfl, rfl⟩
  · rintro ⟨⟨hout, hfull⟩, rfl, rfl⟩
    exact ht.intern_full hout (Nat.le_of_eq hfull.symm)

theorem get?_afterCalls (words : List String) (word : String) (s : Symbol) :
    (afterCalls words).get? word = some s ↔ word ∈ stored words ∧ s = firstHandle words word := by
  have ht := afterCalls_lists words
  by_cases hin : word ∈ stored words
  · rw [ht.get?_of_mem hin, idxOf_stored hin]
    simp [hin, eq_comm]
  · rw [ht.get?_of_not_mem hin]
    simp [hin]

/-- The handles that were given out are the first ones. -/
theorem handle_iff (words : List String) (s : Symbol) :
    (∃ word, (afterCalls words).get? word = some s) ↔ s.index < (stored words).length := by
  have ht := afterCalls_lists words
  constructor
  · rintro ⟨word, hword⟩
    exact (List.getElem?_eq_some_iff.1 (ht.spells_iff.1 ((ht.valid word s).1 hword))).1
  · intro hinside
    exact ⟨_, (ht.valid _ s).2 (ht.spells_iff.2 (List.getElem?_eq_getElem hinside))⟩

/-- No call takes a word from its handle. -/
theorem foldl_extends (ht : t.Valid) (words : List String) :
    (words.foldl afterCall t).Valid ∧ t.Extends (words.foldl afterCall t) := by
  induction words generalizing t with
  | nil => exact ⟨ht, .refl t⟩
  | cons word words ih =>
      have hone : (t.afterCall word).Valid ∧ t.Extends (t.afterCall word) := by
        cases hcall : intern word t with
        | ok s u =>
          obtain ⟨hu, -, hextends⟩ := intern_ok ht hcall
          rw [afterCall_ok hcall]
          exact ⟨hu, hextends⟩
        | error cause u =>
          rw [afterCall_error hcall, intern_unchanged hcall]
          exact ⟨ht, .refl t⟩
      obtain ⟨hvalid, hextends⟩ := ih hone.1
      exact ⟨hvalid, hone.2.trans hextends⟩

/-- The handle of a granted call names its word at every later point. -/
theorem spells_later (hcall : intern word (afterCalls words) = .ok s u) (later : List String) :
    (afterCalls (words ++ word :: later)).Spells s word := by
  obtain ⟨hu, hword, -⟩ := intern_ok (afterCalls_lists words).valid hcall
  have hnow : afterCalls (words ++ word :: later) = later.foldl afterCall u := by
    rw [← afterCall_ok hcall, afterCalls, List.foldl_append]
    rfl
  rw [hnow]
  exact (foldl_extends hu later).2 s word hword

/-- The table after any calls, and the next call. The table has the different words of the
calls in the order of their first ones, without those that came when it was full. Its handles
are the numbers below its size. The next call is refused only for a new word in a full table,
and then it changes nothing. It gives the number of different words before the first call for
its word; from then on the handle resolves to the word and the word is found under the handle,
and a later call gives the same handle exactly if its word has the same bytes. -/
theorem afterCalls_spec (words : List String) :
    let t : SymbolTable := afterCalls words
    let l := stored words
    (t.toList = l.zipIdx.map fun (word, i) => (⟨i⟩, word)) ∧
    t.size = l.length ∧ l.length ≤ indexCapacity ∧ l.Nodup ∧
    t.bytes = (l.map String.utf8ByteSize).sum ∧
    (∀ (word : String) (s : Symbol) (u : SymbolTable), intern word t = .ok s u ↔
      (word ∈ l ∨ l.length < indexCapacity) ∧
        s = firstHandle words word ∧ u = afterCalls (words ++ [word])) ∧
    (∀ (word : String) (cause : StoreError) (u : SymbolTable), intern word t = .error cause u ↔
      (word ∉ l ∧ l.length = indexCapacity) ∧
        cause = .capacityExceeded .symbol indexCapacity ∧ u = t) ∧
    (∀ (word : String) (s : Symbol),
      t.get? word = some s ↔ word ∈ l ∧ s = firstHandle words word) ∧
    (∀ s : Symbol, (∃ word, t.get? word = some s) ↔ s.index < l.length) ∧
    (∀ (s : Symbol) (word : String), t.resolve s = .ok word ↔ l[s.index]? = some word) ∧
    (∀ (s : Symbol) (cause : StoreError), t.resolve s = .error cause ↔
      l.length ≤ s.index ∧ cause = .invalidIndex .symbol s.index l.length) ∧
    ∀ (word : String) (s : Symbol) (u : SymbolTable) (later : List String),
      intern word t = .ok s u →
      let now := afterCalls (words ++ word :: later)
      now.resolve s = .ok word ∧ now.get? word = some s ∧
        ∀ (word' : String) (s' : Symbol) (u' : SymbolTable), intern word' now = .ok s' u' →
          (s = s' ↔ word.toUTF8 = word'.toUTF8) := by
  intro t l
  have ht := afterCalls_lists words
  refine ⟨ht.toList_eq, ht.size_eq, stored_length words, ht.nodup, ht.bytes, intern_ok_iff words,
    intern_error_iff words, get?_afterCalls words, handle_iff words,
    fun s word => resolve_eq_ok.trans ht.spells_iff, fun s => ht.resolve_error_iff, ?_⟩
  intro word s u later hcall now
  have hnow := spells_later hcall later
  have hvalid : now.Valid := (afterCalls_lists _).valid
  refine ⟨resolve_eq_ok.2 hnow, (hvalid word s).2 hnow, ?_⟩
  intro word' s' u' hcall'
  obtain ⟨hvalid', hword', hextends⟩ := intern_ok hvalid hcall'
  have hword := hextends s word hnow
  have hbytes : word.toUTF8 = word'.toUTF8 ↔ word = word' := String.toByteArray_inj
  rw [hbytes]
  constructor
  · rintro rfl
    exact Option.some.inj (hword.symm.trans hword')
  · rintro rfl
    exact hvalid'.inj hword hword'

/-- The third different word gets the handle 2, also between repetitions. -/
theorem afterCalls_spec_third :
    let words := ["mov", "lea", "mov"]
    let now := afterCalls (words ++ "add" :: ["lea"])
    intern "add" (afterCalls words) = .ok ⟨2⟩ (afterCalls (words ++ ["add"])) ∧
      now.resolve ⟨2⟩ = .ok "add" ∧ now.get? "add" = some ⟨2⟩ := by
  intro words now
  obtain ⟨-, -, -, -, -, hgranted, -, -, -, -, -, hlater⟩ := afterCalls_spec words
  have hcall : intern "add" (afterCalls words) = .ok ⟨2⟩ (afterCalls (words ++ ["add"])) :=
    (hgranted "add" ⟨2⟩ _).2 ⟨.inr (by decide), by decide, rfl⟩
  obtain ⟨hresolve, hget, -⟩ := hlater "add" ⟨2⟩ _ ["lea"] hcall
  exact ⟨hcall, hresolve, hget⟩

end SymbolTable

end LabelGraph
