import LabelGraph.Proofs.Parse.Outcome
import LabelGraph.Proofs.Store.Keywords

/-!
The handles of the reserved words. They are the same in all tables of parses with the same
settings, whatever the texts. If there are more reserved words than handles, no text is read.
-/

namespace LabelGraph

open Parse

section Reserved

variable {settings : Settings} {t : SymbolTable}

/-- The table of a parse starts with the words of its settings. -/
theorem parse_extends (hseed : SymbolTable.seeded settings.reserved = .ok t)
    (source : List UInt8) :
    (parse source settings).symbols.Valid ∧ t.Extends (parse source settings).symbols := by
  have hchanges := (performance_routine (tokenize source)).changes
    (ofTable source settings t).started
  rw [parse_of_table hseed, ended_keeps Parse.symbols fun _ _ => rfl]
  exact hchanges.symbols (SymbolTable.seeded_valid hseed)

/-- Reserved words that do not fit into a table end a parse in its first step. -/
theorem parse_of_full (hfull : indexCapacity < settings.reserved.toList.length)
    (source : List UInt8) :
    parse source settings = (ofSource source settings).step ∧
      (ofSource source settings).step =
        { ofTable source settings .empty with
          phase := .failed
          seedError := some (.capacityExceeded .symbol indexCapacity)
          diagnostics := #[{
            severity := .error, code := Code.capacity, span := .zero
            message := (StoreError.capacityExceeded .symbol indexCapacity).message }] } := by
  cases hseed : SymbolTable.seeded settings.reserved with
  | ok t =>
    have hroom := (SymbolTable.seeded_ok_iff settings.reserved_nodup).1 ⟨t, hseed⟩
    omega
  | error e =>
    obtain ⟨rfl, -⟩ := SymbolTable.seeded_error hseed
    have hsource : ofSource source settings = { ofTable source settings .empty with
        seedError := some (.capacityExceeded .symbol indexCapacity) } := by
      rw [ofSource, hseed]
    have hread := readStep_unseeded (p := ofSource source settings) (by rw [hsource])
    have hstep : (ofSource source settings).step = (ofSource source settings).started.fail
        (.storage (.capacityExceeded .symbol indexCapacity) .zero) := by
      rw [step_of_ongoing (by rw [hsource]; rfl), hread]
      rfl
    rw [parse_of_unseeded (by rw [hsource]), hstep, hsource]
    exact ⟨rfl, rfl⟩

end Reserved

/-- The reserved words are the 22 built-in ones and behind them the configured ones, each at its
first occurrence, and the set of them is the same. A table can be seeded with them if and only
if there are handles enough, and then the word at position `i` has the handle `i`. It has this
handle at the end of every parse with these settings, and the handle has this word. With too
many reserved words every parse fails in its first step: it reports that, and nothing else, and
its graph is empty. -/
theorem parse_reserved (settings : Settings) :
    let words := settings.reserved.toList
    (words = Keywords.builtIn ++ (settings.keywords.filter (· ∉ Keywords.builtIn)).eraseDups ∧
      Keywords.builtIn.length = 22 ∧ words.Nodup ∧
      ∀ word, settings.reserved.contains word ↔ word ∈ words) ∧
    ((∃ t, SymbolTable.seeded settings.reserved = .ok t) ↔ words.length ≤ indexCapacity) ∧
    (∀ t, SymbolTable.seeded settings.reserved = .ok t → t.size = words.length ∧
      ∀ (i : Nat) (word : String),
        (t.get? word = some ⟨i⟩ ↔ words[i]? = some word) ∧
        (t.resolve ⟨i⟩ = .ok word ↔ words[i]? = some word)) ∧
    (words.length ≤ indexCapacity → ∀ (source : List UInt8) (i : Nat) (word : String),
      words[i]? = some word →
        (parse source settings).symbols.get? word = some ⟨i⟩ ∧
        (parse source settings).symbols.resolve ⟨i⟩ = .ok word) ∧
    (indexCapacity < words.length → ∀ source : List UInt8,
      parse source settings = (ofSource source settings).step ∧
      (parse source settings).phase = .failed ∧ (parse source settings).graph = {} ∧
      (parse source settings).diagnostics =
        #[{ severity := .error, code := Code.capacity, span := .zero
            message := "symbol capacity of 65536 exhausted" }]) := by
  intro words
  have hnodup := settings.reserved_nodup
  have hseeded {t : SymbolTable} (ht : SymbolTable.seeded settings.reserved = .ok t) :
      t.Lists words := SymbolTable.seeded_lists hnodup ht
  refine ⟨⟨settings.reserved_toList, rfl, hnodup, settings.reserved_contains⟩,
    SymbolTable.seeded_ok_iff hnodup, ?_, ?_, ?_⟩
  · intro t ht
    have hlists := hseeded ht
    refine ⟨hlists.size_eq, fun i word => ?_⟩
    exact ⟨(hlists.valid word ⟨i⟩).trans hlists.spells_iff,
      SymbolTable.resolve_eq_ok.trans hlists.spells_iff⟩
  · intro hroom source i word hword
    obtain ⟨t, ht⟩ := (SymbolTable.seeded_ok_iff hnodup).2 hroom
    obtain ⟨hvalid, hextends⟩ := parse_extends ht source
    have hspells := hextends ⟨i⟩ word ((hseeded ht).spells_iff.2 hword)
    exact ⟨(hvalid word ⟨i⟩).2 hspells, SymbolTable.resolve_eq_ok.2 hspells⟩
  · intro hfull source
    obtain ⟨hparse, hstep⟩ := parse_of_full hfull source
    rw [hparse, hstep]
    exact ⟨rfl, rfl, rfl, rfl⟩

def letters (n : Nat) : String := String.ofList (List.replicate n 'a')

/-- A word that is configured twice, with a built-in word in between, has the handle behind the
built-in ones in every text. With the words of fewer than 65536 letters `a` there is no room
for the built-in ones. -/
theorem parse_reserved_both :
    (∃ settings : Settings, settings.keywords = ["db", "mov", "db"] ∧
      settings.reserved.toList.length ≤ indexCapacity ∧
      settings.reserved.toList[22]? = some "db" ∧ ∀ source : List UInt8,
        (parse source settings).symbols.get? "db" = some ⟨22⟩ ∧
        (parse source settings).symbols.resolve ⟨22⟩ = .ok "db") ∧
    ∃ settings : Settings, indexCapacity < settings.reserved.toList.length ∧
      ∀ source : List UInt8,
        (parse source settings).phase = .failed ∧ (parse source settings).graph = {} := by
  constructor
  · let settings : Settings := { keywords := ["db", "mov", "db"] }
    obtain ⟨⟨hwords, -⟩, -, -, hhandles, -⟩ := parse_reserved settings
    have hword : settings.reserved.toList[22]? = some "db" := by
      rw [hwords]
      decide
    have hroom : settings.reserved.toList.length ≤ indexCapacity := by
      rw [hwords]
      decide
    exact ⟨settings, rfl, hroom, hword, fun source => hhandles hroom source 22 "db" hword⟩
  · have hletters (n : Nat) : letters n ∉ Keywords.builtIn := by
      have hother : ∀ word ∈ Keywords.builtIn, word.toList.any (· != 'a') := by decide
      intro hin
      obtain ⟨c, hc, hne⟩ := List.any_eq_true.1 (hother _ hin)
      have hspelled : n ≠ 0 ∧ c = 'a' := by simpa [letters] using hc
      exact bne_iff_ne.1 hne hspelled.2
    have hinj : Function.Injective letters := by
      intro m n hmn
      have hlength := congrArg String.length hmn
      simpa [letters] using hlength
    have hwords (n : Nat) :
        ({ keywords := (List.range n).map letters } : Settings).reserved.toList.length =
          22 + n := by
      rw [Settings.reserved_length (List.nodup_range.map hinj), List.length_map, List.length_range]
      · rfl
      · intro word hword
        obtain ⟨m, -, rfl⟩ := List.mem_map.1 hword
        exact hletters m
    have hfull := Nat.lt_of_lt_of_eq (Nat.lt_add_of_pos_left (by decide : 0 < 22))
      (hwords indexCapacity).symm
    refine ⟨_, hfull, fun source => ?_⟩
    obtain ⟨-, hphase, hgraph, -⟩ := (parse_reserved _).2.2.2.2 hfull source
    exact ⟨hphase, hgraph⟩

end LabelGraph
