import LabelGraph.Proofs.Store.Interning
import LabelGraph.Settings.Basic

/-!
The reserved words. They are a list without repetitions: the built-in words, and behind them
the configured ones in the order in which they first occur. A table that is seeded with them
numbers them in this order.
-/

namespace LabelGraph

theorem nodup_eraseDups (words : List String) : words.eraseDups.Nodup := by
  induction words using List.reverseRecOn with
  | nil => exact List.nodup_nil
  | append_singleton words word ih =>
    rw [SymbolTable.eraseDups_concat]
    split
    · exact ih
    · next hword =>
      refine List.nodup_append.2 ⟨ih, List.nodup_singleton word, ?_⟩
      intro other hother _ hlast heq
      rw [List.mem_singleton.1 hlast] at heq
      exact hword (heq ▸ List.mem_eraseDups.1 hother)

theorem eraseDups_of_nodup {words : List String} (h : words.Nodup) : words.eraseDups = words := by
  induction words using List.reverseRecOn with
  | nil => rfl
  | append_singleton words word ih =>
    obtain ⟨hwords, -, hlast⟩ := List.nodup_append.1 h
    have hword : word ∉ words := fun hin => hlast word hin word (List.mem_singleton_self word) rfl
    rw [SymbolTable.eraseDups_concat, if_neg hword, ih hwords]

namespace Keywords

structure Holds (k : Keywords) (l : List String) : Prop where
  toList_eq : k.toList = l.eraseDups
  contains_iff : ∀ word, k.contains word ↔ word ∈ l

namespace Holds

variable {k : Keywords} {l : List String}

theorem empty : Keywords.empty.Holds [] where
  toList_eq := rfl
  contains_iff word := by simp [contains, Keywords.empty]

/-- A word is appended at its first occurrence and never again. -/
theorem insert (h : k.Holds l) (word : String) : (k.insert word).Holds (l ++ [word]) := by
  have hlist := h.toList_eq
  rw [toList] at hlist
  unfold Keywords.insert
  split
  · next hold =>
    have hword := (h.contains_iff word).1 hold
    refine ⟨?_, fun other => ?_⟩
    · rw [toList, hlist, SymbolTable.eraseDups_concat, if_pos hword]
    · rw [h.contains_iff, List.mem_append, List.mem_singleton]
      exact ⟨.inl, fun hin => hin.elim id fun heq => heq ▸ hword⟩
  · next hnew =>
    have hword : word ∉ l := fun hin => hnew ((h.contains_iff word).2 hin)
    refine ⟨?_, fun other => ?_⟩
    · rw [toList, Array.toList_push, hlist, SymbolTable.eraseDups_concat, if_neg hword]
    · have hset : (k.members.insert word).contains other ↔ word = other ∨ k.contains other := by
        rw [Std.HashSet.contains_insert, Bool.or_eq_true, beq_iff_eq, contains]
      rw [contains, hset, h.contains_iff, List.mem_append, List.mem_singleton, or_comm, eq_comm]

theorem insertAll (h : k.Holds l) (words : List String) :
    (k.insertAll words).Holds (l ++ words) := by
  induction words generalizing k l with
  | nil => rwa [List.append_nil]
  | cons word words ih =>
    have hrest := ih (h.insert word)
    rwa [List.append_assoc] at hrest

end Holds

theorem standard_holds : standard.Holds builtIn := Holds.empty.insertAll builtIn

end Keywords

theorem Settings.reserved_holds (settings : Settings) :
    settings.reserved.Holds (Keywords.builtIn ++ settings.keywords) :=
  Keywords.standard_holds.insertAll settings.keywords

/-- The configured words follow the built-in ones, without these and without repetitions. -/
theorem Settings.reserved_toList (settings : Settings) :
    settings.reserved.toList =
      Keywords.builtIn ++ (settings.keywords.filter (· ∉ Keywords.builtIn)).eraseDups := by
  have hbuiltIn : Keywords.builtIn.Nodup := by decide
  rw [settings.reserved_holds.toList_eq, List.eraseDups_append, eraseDups_of_nodup hbuiltIn]
  congr 2
  simp [List.removeAll]

/-- Words that are all different, and none of them built-in, are all added. -/
theorem Settings.reserved_length {settings : Settings} (hnodup : settings.keywords.Nodup)
    (hnew : ∀ word ∈ settings.keywords, word ∉ Keywords.builtIn) :
    settings.reserved.toList.length = Keywords.builtIn.length + settings.keywords.length := by
  have hkeep : settings.keywords.filter (· ∉ Keywords.builtIn) = settings.keywords :=
    List.filter_eq_self.2 fun word hword => decide_eq_true (hnew word hword)
  rw [reserved_toList, hkeep, eraseDups_of_nodup hnodup, List.length_append]

theorem Settings.reserved_nodup (settings : Settings) : settings.reserved.toList.Nodup := by
  rw [settings.reserved_holds.toList_eq]
  exact nodup_eraseDups _

theorem Settings.reserved_contains (settings : Settings) (word : String) :
    settings.reserved.contains word ↔ word ∈ settings.reserved.toList := by
  rw [settings.reserved_holds.contains_iff, settings.reserved_holds.toList_eq, List.mem_eraseDups]

namespace SymbolTable

variable {t u : SymbolTable} {l words : List String} {k : Keywords}

/-- New words are put behind the old ones in their order. -/
theorem internAll_lists {x : Unit} (ht : t.Lists l) (hnew : (l ++ words).Nodup)
    (h : internAll words t = .ok x u) : u.Lists (l ++ words) := by
  induction words generalizing t l with
  | nil =>
    cases h
    rwa [List.append_nil]
  | cons word words ih =>
    obtain ⟨_, v, hfirst, hrest⟩ := bind_ok_iff.1 h
    obtain ⟨s, v', hintern, hpure⟩ := bind_ok_iff.1 hfirst
    cases hpure
    have hword : word ∉ l := by
      intro hin
      exact (List.nodup_append.1 hnew).2.2 word hin word List.mem_cons_self rfl
    have hsplit : l ++ word :: words = (l ++ [word]) ++ words := by simp
    rw [hsplit] at hnew ⊢
    by_cases hroom : l.length < indexCapacity
    · obtain ⟨w, hcall, hw⟩ := ht.intern_new hword hroom
      cases hcall.symm.trans hintern
      exact ih hw hnew hrest
    · cases (ht.intern_full hword (Nat.not_lt.1 hroom)).symm.trans hintern

theorem seeded_lists (hk : k.toList.Nodup) (h : seeded k = .ok t) : t.Lists k.toList := by
  rw [seeded] at h
  split at h
  · next hall =>
    cases h
    exact internAll_lists .empty hk hall
  · cases h

/-- A table takes as many reserved words as there are handles. -/
theorem seeded_ok_iff (hk : k.toList.Nodup) :
    (∃ t, seeded k = .ok t) ↔ k.toList.length ≤ indexCapacity := by
  constructor
  · rintro ⟨t, ht⟩
    rw [← (seeded_lists hk ht).size_eq]
    exact (seeded_interned ht).room
  · intro hroom
    cases hseed : seeded k with
    | ok t => exact ⟨t, rfl⟩
    | error e =>
      have hfull : indexCapacity < k.toList.length := (seeded_error hseed).2
      omega

/-- The built-in words alone fit into a table. -/
theorem seeded_default : ∃ t, seeded ({} : Settings).reserved = .ok t := by
  refine (seeded_ok_iff (Settings.reserved_nodup {})).2 ?_
  rw [Settings.reserved_toList]
  decide

end SymbolTable

end LabelGraph
