import LabelGraph.Store.Symbols

/-!
A symbol table is a one-to-one account of its words. Interning a word gives the handle
under which it stands, and never moves another word.
-/

namespace LabelGraph

namespace SymbolTable

def Spells (t : SymbolTable) (s : Symbol) (word : String) : Prop := t.words[s.index]? = some word

/-- Words and handles belong together one to one. -/
def Valid (t : SymbolTable) : Prop := ∀ word s, t.get? word = some s ↔ t.Spells s word

def Extends (t u : SymbolTable) : Prop := ∀ s word, t.Spells s word → u.Spells s word

variable {t u : SymbolTable} {s : Symbol} {word : String}

theorem Extends.refl (t : SymbolTable) : t.Extends t := fun _ _ h => h

theorem Extends.trans {v : SymbolTable} (h : t.Extends u) (h' : u.Extends v) : t.Extends v :=
  fun s word hs => h' s word (h s word hs)

theorem Valid.inj {r : Symbol} (ht : t.Valid) (hs : t.Spells s word) (hr : t.Spells r word) :
    s = r :=
  Option.some.inj (((ht word s).2 hs).symm.trans ((ht word r).2 hr))

theorem resolve_eq_ok : t.resolve s = .ok word ↔ t.Spells s word := by
  rw [Spells, resolve]
  cases t.words[s.index]? <;> simp

theorem empty_valid : empty.Valid := by
  intro word s
  simp [empty, get?, Spells]

/-- Interning finds the word, or puts it behind all others. -/
theorem intern_ok (ht : t.Valid) (h : intern word t = .ok s u) :
    u.Valid ∧ u.Spells s word ∧ t.Extends u := by
  rw [intern] at h
  cases hget : t.get? word with
  | some r =>
    rw [hget] at h
    cases h
    exact ⟨ht, (ht word s).1 hget, .refl t⟩
  | none =>
    simp only [hget] at h
    split at h
    · cases h
      have hold : t.Extends
          ⟨t.words.push word, t.handles.insert word ⟨t.size⟩, t.bytes + word.utf8ByteSize⟩ := by
        intro r other hr
        have hlt := (Array.getElem?_eq_some_iff.1 hr).1
        have hne : r.index ≠ t.words.size := Nat.ne_of_lt hlt
        simpa [Spells, Array.getElem?_push, hne] using hr
      refine ⟨?_, by simp [Spells, size], hold⟩
      intro other r
      simp only [get?, Spells, Std.HashMap.getElem?_insert, Array.getElem?_push, size]
      by_cases hword : word = other
      · subst hword
        rw [if_pos (by simp)]
        by_cases hr : r.index = t.words.size
        · rw [if_pos hr]
          exact ⟨fun _ => rfl, fun _ => by rw [← hr]⟩
        · rw [if_neg hr]
          constructor
          · intro heq
            cases heq
            exact absurd rfl hr
          · intro heq
            have hfound := (ht word r).2 heq
            rw [hget] at hfound
            cases hfound
      · rw [if_neg (by simpa using hword)]
        by_cases hr : r.index = t.words.size
        · rw [if_pos hr]
          constructor
          · intro hfound
            have hlt := (Array.getElem?_eq_some_iff.1 ((ht other r).1 hfound)).1
            omega
          · intro heq
            exact absurd (Option.some.inj heq) hword
        · rw [if_neg hr]
          exact ht other r
    · cases h

theorem intern_size (h : intern word t = .ok s u) : u.size ≤ t.size + 1 := by
  rw [intern] at h
  split at h
  · cases h
    exact Nat.le_succ _
  · split at h
    · cases h
      simp [size]
    · cases h

theorem intern_error {e : StoreError} (h : intern word t = .error e u) :
    e = .capacityExceeded .symbol indexCapacity ∧ indexCapacity ≤ t.size := by
  rw [intern] at h
  split at h
  · cases h
  · split at h
    · cases h
    · next hfull =>
      cases h
      exact ⟨rfl, Nat.not_lt.1 hfull⟩

theorem intern_unchanged {e : StoreError} (h : intern word t = .error e u) : u = t := by
  rw [intern] at h
  split at h
  · cases h
  · split at h <;> cases h
    rfl

theorem internAll_ok {words : List String} {x : Unit} (ht : t.Valid)
    (h : internAll words t = .ok x u) : u.Valid ∧ t.Extends u := by
  induction words generalizing t with
  | nil =>
    cases h
    exact ⟨ht, .refl _⟩
  | cons word words ih =>
      obtain ⟨_, v, hfirst, hrest⟩ := bind_ok_iff.1 h
      obtain ⟨s, v', hintern, hpure⟩ := bind_ok_iff.1 hfirst
      cases hpure
      obtain ⟨hv, -, hextends⟩ := intern_ok ht hintern
      obtain ⟨hu, hmore⟩ := ih hv hrest
      exact ⟨hu, hextends.trans hmore⟩

theorem internAll_size {words : List String} {x : Unit} (h : internAll words t = .ok x u) :
    u.size ≤ t.size + words.length := by
  induction words generalizing t with
  | nil =>
    cases h
    exact Nat.le_refl _
  | cons word words ih =>
      obtain ⟨_, v, hfirst, hrest⟩ := bind_ok_iff.1 h
      obtain ⟨s, v', hintern, hpure⟩ := bind_ok_iff.1 hfirst
      cases hpure
      have hone := intern_size hintern
      have hmore := ih hrest
      simp only [List.length_cons]
      omega

theorem internAll_error {words : List String} {e : StoreError}
    (h : internAll words t = .error e u) :
    e = .capacityExceeded .symbol indexCapacity ∧ indexCapacity < t.size + words.length := by
  induction words generalizing t with
  | nil => cases h
  | cons word words ih =>
      simp only [List.length_cons]
      rcases bind_error_iff.1 h with hfirst | ⟨_, v, hfirst, hrest⟩
      · rcases bind_error_iff.1 hfirst with hintern | ⟨_, _, _, hpure⟩
        · obtain ⟨he, hfull⟩ := intern_error hintern
          exact ⟨he, by omega⟩
        · cases hpure
      · obtain ⟨s, v', hintern, hpure⟩ := bind_ok_iff.1 hfirst
        cases hpure
        have hone := intern_size hintern
        obtain ⟨he, hfull⟩ := ih hrest
        exact ⟨he, by omega⟩

theorem seeded_valid {k : Keywords} (h : seeded k = .ok t) : t.Valid := by
  rw [seeded] at h
  split at h
  · next hall =>
    cases h
    exact (internAll_ok empty_valid hall).1
  · cases h

theorem seeded_size {k : Keywords} (h : seeded k = .ok t) : t.size ≤ k.size := by
  rw [seeded] at h
  split at h
  · next hall =>
    cases h
    have hsize := internAll_size hall
    have hempty : empty.size = 0 := rfl
    rw [hempty, Nat.zero_add] at hsize
    exact hsize
  · cases h

theorem seeded_error {k : Keywords} {e : StoreError} (h : seeded k = .error e) :
    e = .capacityExceeded .symbol indexCapacity ∧ indexCapacity < k.size := by
  rw [seeded] at h
  split at h
  · cases h
  · next hall =>
    cases h
    obtain ⟨he, hfull⟩ := internAll_error hall
    have hempty : empty.size = 0 := rfl
    rw [hempty, Nat.zero_add] at hfull
    exact ⟨he, hfull⟩

/-! Tables that are built by interning. -/

/-- A table to which words were added one after another, and nothing else was done. -/
inductive Interned : SymbolTable → Prop
  | empty : Interned empty
  | intern {t u : SymbolTable} {word : String} {s : Symbol} (ht : Interned t)
    (h : intern word t = .ok s u) : Interned u

/-- Words are added as long as there is room for them. -/
theorem intern_room (hroom : t.size ≤ indexCapacity) (h : intern word t = .ok s u) :
    u.size ≤ indexCapacity := by
  rw [intern] at h
  split at h
  · cases h
    exact hroom
  · split at h
    · next hlt =>
      cases h
      simpa [size] using Nat.succ_le_of_lt hlt
    · cases h

theorem Interned.valid (h : t.Interned) : t.Valid := by
  induction h with
  | empty => exact empty_valid
  | intern _ hintern ih => exact (intern_ok ih hintern).1

theorem Interned.room (h : t.Interned) : t.size ≤ indexCapacity := by
  induction h with
  | empty => exact Nat.zero_le _
  | intern _ hintern ih => exact intern_room ih hintern

theorem internAll_interned {words : List String} {x : Unit} (ht : t.Interned)
    (h : internAll words t = .ok x u) : u.Interned := by
  induction words generalizing t with
  | nil =>
    cases h
    exact ht
  | cons word words ih =>
      obtain ⟨_, v, hfirst, hrest⟩ := bind_ok_iff.1 h
      obtain ⟨s, v', hintern, hpure⟩ := bind_ok_iff.1 hfirst
      cases hpure
      exact ih (ht.intern hintern) hrest

theorem seeded_interned {k : Keywords} (h : seeded k = .ok t) : t.Interned := by
  rw [seeded] at h
  split at h
  · next hall =>
    cases h
    exact internAll_interned .empty hall
  · cases h

end SymbolTable

theorem Keywords.insertAll_size (k : Keywords) (words : List String) :
    (k.insertAll words).size ≤ k.size + words.length := by
  induction words generalizing k with
  | nil => exact Nat.le_refl _
  | cons word words ih =>
      have hone : (k.insert word).size ≤ k.size + 1 := by
        unfold insert
        split
        · exact Nat.le_succ _
        · simp [size]
      have hmore : (k.insertAll (word :: words)).size ≤ (k.insert word).size + words.length :=
        ih (k.insert word)
      simp only [List.length_cons]
      omega

end LabelGraph
