import LabelGraph.Proofs.Toml.Number
import LabelGraph.Proofs.Toml.Quoted
import LabelGraph.Settings.Toml

/-!
Settings that were written as a document are read from it as they were. Each line is one
statement of the document, and each statement puts one member into its table. An absent limit
on diagnostics has no line, so only settings with a limit are compared.
-/

namespace LabelGraph

namespace Toml

variable {steps levels : Nat} {rest written : List Char} {value : Toml}

/-! Values. -/

theorem value?_quoted (s : String) (hrest : ∀ c ∈ rest.head?, c ≠ '"' ∧ c ≠ '\'') :
    value? steps levels (quoted s ++ rest) = some (.string s, rest) := by
  obtain ⟨c, tail, hquoted, hc⟩ := quoted_head s
  have hread := readQuoted?_quoted s hrest
  rw [hquoted, List.cons_append] at hread ⊢
  rcases hc with rfl | rfl <;> simp [value?, hread]

theorem writeNumber_eq (n : UInt32) : Settings.writeNumber n = Nat.toDigits 10 n.toNat :=
  Nat.toList_repr

theorem value?_number (n : UInt32) (rest : List Char) :
    value? steps levels (Settings.writeNumber n ++ '\n' :: rest) =
      some (.integer n.toNat, '\n' :: rest) := by
  have hread := dateTimeOrNumber?_toDigits n.toNat (Nat.lt_trans n.toNat_lt (by decide)) rest
  obtain ⟨d, digits, hdigits, hd, -⟩ := toDigits_cons n.toNat
  rw [writeNumber_eq]
  rw [hdigits, List.cons_append] at hread ⊢
  have hstart {c : Char} {text more : List Char} (hc : c.isDigit = false) :
      d :: text ≠ c :: more := by
    intro heq
    rw [(List.cons.inj heq).1, hc] at hd
    cases hd
  have hopened : readQuoted? (d :: (digits ++ '\n' :: rest)) = none := by
    rw [readQuoted?, Quoting.opened?] <;> exact fun _ => hstart (by decide)
  rw [value?, hopened]
  · exact hread
  all_goals exact fun _ => hstart (by decide)

/-- White space in front of a quoted string is passed over up to its quote. -/
theorem skip_quoted (s : String) (rest : List Char) :
    skipSpace.skip false (quoted s ++ rest) = quoted s ++ rest := by
  obtain ⟨c, tail, hquoted, hc⟩ := quoted_head s
  rw [hquoted, List.cons_append]
  rcases hc with rfl | rfl <;> simp [skipSpace.skip, isBlank]

section Items

variable {count : Nat} {read : List Toml} {text : List Char}

theorem items?_end (h : skipSpace text = ']' :: rest) :
    items? (value? steps levels) (count + 1) read text = some (read.reverse, rest) := by
  simp only [items?, h]

theorem items?_item {s : String} {d : Char} (h : skipSpace text = quoted s ++ d :: rest)
    (hd : d = ',' ∨ d = ']') :
    items? (value? steps levels) (count + 1) read text =
      if d = ',' then items? (value? steps levels) count (.string s :: read) rest
      else some ((.string s :: read).reverse, rest) := by
  obtain ⟨c, tail, hquoted, hc⟩ := quoted_head s
  have hbehind : ∀ e ∈ (d :: rest).head?, e ≠ '"' ∧ e ≠ '\'' := by
    rintro e ⟨⟩
    rcases hd with rfl | rfl <;> decide
  have hread : value? steps levels (quoted s ++ d :: rest) = some (.string s, d :: rest) :=
    value?_quoted s hbehind
  rw [hquoted, List.cons_append] at h hread
  rw [items?, h]
  have hspace : skipSpace (d :: rest) = d :: rest := by
    rcases hd with rfl | rfl <;> simp [skipSpace, skipSpace.skip, isBlank]
  rcases hc with rfl | rfl <;> rcases hd with rfl | rfl <;> simp [hread, hspace]

/-- The items of an array on lines of their own. -/
theorem items?_lines (words : List String) (hcount : words.length < count) (read : List Toml)
    (rest : List Char) :
    items? (value? steps levels) count read
        ('\n' :: (words.flatMap Settings.writeItem ++ ']' :: rest)) =
      some (read.reverse ++ words.map .string, rest) := by
  induction words generalizing count read with
  | nil =>
    obtain ⟨count, rfl⟩ := Nat.exists_eq_add_of_lt hcount
    rw [List.map_nil, List.append_nil]
    exact items?_end rfl
  | cons word words ih =>
    obtain ⟨count, rfl⟩ : ∃ n, count = n + 1 := ⟨count - 1, by omega⟩
    have hspace : skipSpace
        ('\n' :: ((word :: words).flatMap Settings.writeItem ++ ']' :: rest)) =
          quoted word ++ ',' :: '\n' :: (words.flatMap Settings.writeItem ++ ']' :: rest) := by
      rw [← skip_quoted]
      simp [skipSpace, skipSpace.skip, isBlank, Settings.writeItem]
    rw [items?_item hspace (.inl rfl), if_pos rfl, ih (Nat.lt_of_succ_lt_succ hcount)]
    simp

end Items

theorem value?_strings (words : List String) (hsteps : words.length < steps) (rest : List Char) :
    value? steps (levels + 1) (Settings.writeStrings words ++ rest) =
      some (.array (words.map .string), rest) := by
  obtain ⟨count, rfl⟩ : ∃ n, steps = n + 1 := ⟨steps - 1, by omega⟩
  unfold Settings.writeStrings
  split
  · have hitems : items? (value? (count + 1) levels) (count + 1) [] (']' :: rest) =
        some ([], rest) := items?_end rfl
    rw [List.cons_append, value?]
    exact congrArg _ hitems
  · next word =>
    have hitems : items? (value? (count + 1) levels) (count + 1) [] (quoted word ++ ']' :: rest) =
        some ([.string word], rest) := items?_item (skip_quoted word _) (.inr rfl)
    rw [List.cons_append, value?, List.append_assoc, List.singleton_append, hitems]
    rfl
  · have hitems : items? (value? (count + 1) levels) (count + 1) []
        ('\n' :: (words.flatMap Settings.writeItem ++ ']' :: rest)) =
          some (words.map .string, rest) := items?_lines words hsteps [] rest
    rw [List.cons_append, List.cons_append, value?, List.append_assoc, List.singleton_append,
      hitems]
    rfl

/-! Lines. -/

structure IsName (key : String) : Prop where
  start : key.toList ≠ []
  bare : key.toList.all isBareKeyChar = true

/-- The text is read as this value up to the end of its line. -/
structure IsValue (steps : Nat) (written : List Char) (value : Toml) : Prop where
  start : ∀ rest, skipBlanks (written ++ rest) = written ++ rest
  read : ∀ rest, value? steps depthLimit (written ++ '\n' :: rest) = some (value, '\n' :: rest)

variable {key : String}

/-- A name starts with none of the marks that stand for something else. -/
theorem IsName.start_ne (hkey : IsName key) {d : Char} (hd : isBareKeyChar d = false)
    (text more : List Char) : key.toList ++ text ≠ d :: more := by
  obtain ⟨c, tail, hlist⟩ := List.exists_cons_of_ne_nil hkey.start
  have hc : isBareKeyChar c = true := List.all_eq_true.1 hkey.bare c (hlist ▸ List.mem_cons_self)
  rw [hlist, List.cons_append]
  intro heq
  rw [(List.cons.inj heq).1, hd] at hc
  cases hc

theorem IsName.skipBlanks (hkey : IsName key) (text : List Char) :
    skipBlanks (key.toList ++ text) = key.toList ++ text := by
  obtain ⟨c, tail, hlist⟩ := List.exists_cons_of_ne_nil hkey.start
  have hstart {d : Char} (hd : isBareKeyChar d = false) : c ≠ d := by
    rintro rfl
    exact hkey.start_ne hd [] tail (by rw [hlist, List.append_nil])
  rw [Toml.skipBlanks, hlist, List.cons_append, List.dropWhile_cons_of_neg]
  simp [isBlank, hstart (d := ' ') (by decide), hstart (d := '\t') (by decide)]

theorem IsName.key? (hkey : IsName key) (count : Nat) (rest : List Char) :
    key? (count + 1) (key.toList ++ ' ' :: '=' :: rest) = some ([key], '=' :: rest) := by
  have hopened : Quoting.opened? (key.toList ++ ' ' :: '=' :: rest) = none := by
    rw [Quoting.opened?]
    all_goals exact fun _ => hkey.start_ne (by decide) _ _
  have hname : (key.toList ++ ' ' :: '=' :: rest).takeWhile isBareKeyChar = key.toList := by
    rw [List.takeWhile_append_of_pos (List.all_eq_true.1 hkey.bare)]
    simp [isBareKeyChar]
  have hempty : key.toList.isEmpty = false := by simpa using hkey.start
  have hread : name? (key.toList ++ ' ' :: '=' :: rest) = some (key, ' ' :: '=' :: rest) := by
    simp only [name?, hopened, hname, hempty]
    simp
  have hspace : Toml.skipBlanks (' ' :: '=' :: rest) = '=' :: rest := rfl
  simp only [Toml.key?, hkey.skipBlanks, hread, hspace]
  rfl

theorem writeMember_append (key : String) (written rest : List Char) :
    Settings.writeMember key written ++ rest =
      key.toList ++ ' ' :: '=' :: ' ' :: (written ++ '\n' :: rest) := by
  simp [Settings.writeMember]

theorem member?_line (hkey : IsName key) (hvalue : IsValue steps written value)
    (rest : List Char) :
    member? (value? steps depthLimit) (Settings.writeMember key written ++ rest) =
      some (([key], value), '\n' :: rest) := by
  have hblank : skipBlanks (' ' :: (written ++ '\n' :: rest)) = written ++ '\n' :: rest :=
    hvalue.start _
  have hread : key? depthLimit (key.toList ++ ' ' :: '=' :: ' ' :: (written ++ '\n' :: rest)) =
      some ([key], '=' :: ' ' :: (written ++ '\n' :: rest)) := hkey.key? 78 _
  rw [writeMember_append, member?, hread]
  simp only [hblank, hvalue.read]
  rfl

/-- A line with a name and a value is one statement. -/
theorem statementsAfter_line (hkey : IsName key) (hvalue : IsValue steps written value)
    (read : List Statement) (rest : List Char) :
    statementsAfter (steps + 1) read (Settings.writeMember key written ++ rest) =
      statementsAfter steps (.assign [key] value :: read) rest := by
  have hmember := member?_line hkey hvalue rest
  rw [writeMember_append] at hmember ⊢
  generalize ' ' :: '=' :: ' ' :: (written ++ '\n' :: rest) = behind at hmember ⊢
  have hstart {d : Char} (hd : isBareKeyChar d = false) (more : List Char) :
      key.toList ++ behind ≠ d :: more := hkey.start_ne hd _ _
  have hopen : lineEnd? (key.toList ++ behind) = none := by
    have hline : startsLineEnd (key.toList ++ behind) = false := by
      unfold startsLineEnd
      split
      · next heq => exact absurd heq (hstart (by decide) _)
      · next heq => exact absurd heq (hstart (by decide) _)
      · rfl
    have hempty : (key.toList ++ behind).isEmpty = false := by simp [hkey.start]
    simp only [lineEnd?, hkey.skipBlanks]
    split
    · next heq => exact absurd heq (hstart (by decide) _)
    · rw [hempty, hline]
      rfl
  have hstatement : statement? steps (key.toList ++ behind) =
      some (.assign [key] value, '\n' :: rest) := by
    rw [statement?, hmember]
    · rfl
    · exact fun _ => hstart (by decide) _
    · exact fun _ => hstart (by decide) _
  have hclose : lineEnd? ('\n' :: rest) = some rest := rfl
  obtain ⟨c, tail, hlist⟩ := List.exists_cons_of_ne_nil hkey.start
  simp only [statementsAfter, hkey.skipBlanks]
  rw [hlist, List.cons_append] at hopen hstatement ⊢
  simp only [hopen, hstatement, hclose]

/-! The table. -/

/-- Members with different names are found in the table under their names. -/
theorem tableAfter_members (members : List (String × Toml)) {t : Table} (ht : t.WF)
    (hnew : ∀ m ∈ members, t[m.1]? = none) (hnames : (members.map Prod.fst).Nodup) :
    ∃ u, tableAfter t [] (members.map fun m => .assign [m.1] m.2) = some u ∧
      ∀ name, u[name]? = (members.lookup name).or t[name]? := by
  induction members generalizing t with
  | nil => exact ⟨t, rfl, fun _ => rfl⟩
  | cons m members ih =>
    obtain ⟨hm, hlater⟩ := List.forall_mem_cons.1 hnew
    obtain ⟨hfresh, hnodup⟩ := List.nodup_cons.1 hnames
    have hinsert (name : String) :
        (t.insert m.1 m.2)[name]? = if m.1 = name then some m.2 else t[name]? := by
      rw [Std.TreeMap.Raw.getElem?_insert ht]
      simp
    have hnew' : ∀ n ∈ members, (t.insert m.1 m.2)[n.1]? = none := by
      intro n hn
      rw [hinsert, if_neg, hlater n hn]
      intro heq
      exact hfresh (heq ▸ List.mem_map_of_mem hn)
    obtain ⟨u, hu, hlookup⟩ := ih ht.insert hnew' hnodup
    refine ⟨u, ?_, ?_⟩
    · simp only [List.map_cons, tableAfter, Table.within, Table.assign, hm]
      exact hu
    · intro name
      rw [hlookup, hinsert, List.lookup_cons]
      by_cases hname : m.1 = name
      · have hnone : members.lookup name = none := by
          rw [List.lookup_eq_none_iff]
          intro n hn
          rw [bne_iff_ne, ← hname]
          intro heq
          exact hfresh (heq ▸ List.mem_map_of_mem hn)
        rw [hnone, if_pos hname, hname]
        simp
      · have hother : (name == m.1) = false := by simpa using Ne.symm hname
        rw [if_neg hname, hother]

/-- The table of a document whose statements give values to different names. -/
theorem tableOf_members (members : List (String × Toml)) (hnames : (members.map Prod.fst).Nodup) :
    ∃ t, tableOf (members.map fun m => .assign [m.1] m.2) = some t ∧
      ∀ name, t[name]? = members.lookup name := by
  obtain ⟨t, ht, hlookup⟩ :=
    tableAfter_members members .emptyc (fun _ _ => Std.TreeMap.Raw.getElem?_emptyc) hnames
  refine ⟨t, ht, fun name => ?_⟩
  rw [hlookup, Std.TreeMap.Raw.getElem?_emptyc, Option.or_none]

end Toml

namespace Settings

open LabelGraph.Toml

variable {steps : Nat}

/-! What is written. -/

theorem isValue_strings (words : List String) (hsteps : words.length < steps) :
    IsValue steps (writeStrings words) (.array (words.map .string)) where
  start rest := by
    unfold writeStrings
    split <;> rfl
  read rest := value?_strings words hsteps _

theorem isValue_number (n : UInt32) : IsValue steps (writeNumber n) (.integer n.toNat) where
  start rest := by
    obtain ⟨d, digits, hdigits, hd, -⟩ := toDigits_cons n.toNat
    have hblank : isBlank d = false := by
      rw [isBlank, Bool.or_eq_false_iff, beq_eq_false_iff_ne, beq_eq_false_iff_ne]
      constructor <;> rintro rfl <;> cases hd
    rw [writeNumber_eq, hdigits, List.cons_append]
    exact List.dropWhile_cons_of_neg (by rw [hblank]; decide)
  read := value?_number n

theorem isValue_quoted (s : String) : IsValue steps (quoted s) (.string s) where
  start rest := by
    obtain ⟨c, tail, hquoted, hc⟩ := quoted_head s
    rw [hquoted]
    rcases hc with rfl | rfl <;> rfl
  read rest := value?_quoted s (by simp)

def members (s : Settings) (limit : UInt32) : List (String × Toml) :=
  [(keywordsKey, .array (s.keywords.map .string)), (maxDiagnosticsKey, .integer limit.toNat),
    (maxBlockDepthKey, .integer s.maxBlockDepth.toNat),
    (unresolvedSeverityKey, .string s.unresolvedSeverity.name)]

/-- An array has no more strings than characters. -/
theorem length_writeStrings (words : List String) :
    words.length < (writeStrings words).length := by
  have hitems : words.length ≤ (words.flatMap writeItem).length := by
    induction words with
    | nil => exact Nat.le_refl _
    | cons word words ih =>
      simp [writeItem] at ih ⊢
      omega
  unfold writeStrings
  split
  · decide
  · simp
  · simp only [List.length_cons, List.length_append] at hitems ⊢
    omega

/-- The document is read as one statement for each member. -/
theorem statements?_toToml (s : Settings) {limit : UInt32}
    (hlimit : s.maxDiagnostics = some limit) :
    statements? s.toToml = some ((s.members limit).map fun m => .assign [m.1] m.2) := by
  have htext : s.toToml =
      writeMember keywordsKey (writeStrings s.keywords) ++
        (writeMember maxDiagnosticsKey (writeNumber limit) ++
          (writeMember maxBlockDepthKey (writeNumber s.maxBlockDepth) ++
            (writeMember unresolvedSeverityKey (quoted s.unresolvedSeverity.name) ++ []))) := by
    simp [toToml, hlimit]
  have hmark : statements? s.toToml = statementsAfter (s.toToml.length + 1) [] s.toToml := by
    rw [statements?]
    intro rest heq
    rw [htext] at heq
    cases heq
  have hlength := length_writeStrings s.keywords
  obtain ⟨steps, hsteps, hwords⟩ : ∃ steps, s.toToml.length + 1 = steps + 5 ∧
      s.keywords.length < steps + 4 := by
    refine ⟨s.toToml.length - 4, ?_, ?_⟩ <;>
    · rw [htext]
      simp only [List.length_append, writeMember, List.length_cons]
      omega
  rw [hmark, hsteps, htext,
    statementsAfter_line ⟨by decide, by decide⟩ (isValue_strings _ hwords),
    statementsAfter_line ⟨by decide, by decide⟩ (isValue_number _),
    statementsAfter_line ⟨by decide, by decide⟩ (isValue_number _),
    statementsAfter_line ⟨by decide, by decide⟩ (isValue_quoted _)]
  rfl

/-! What is read. -/

theorem mapM_string (words : List String) :
    (words.map Toml.string).mapM Toml.string? = some words := by
  induction words with
  | nil => rfl
  | cons word words ih => simp [ih, Toml.string?]

theorem word32?_integer (n : UInt32) : (Toml.integer n.toNat).word32? = some n := by
  have hrange : (0 : Int) ≤ n.toNat ∧ (n.toNat : Int) < 4294967296 := by
    have := n.toNat_lt
    omega
  rw [word32?, if_pos hrange]
  simp

/-- Settings with a limit are read from their document. -/
theorem ofToml?_toToml (s : Settings) {limit : UInt32} (hlimit : s.maxDiagnostics = some limit) :
    ofToml? s.toToml = some s := by
  obtain ⟨t, ht, hlookup⟩ := tableOf_members (s.members limit) (by
    change [keywordsKey, maxDiagnosticsKey, maxBlockDepthKey, unresolvedSeverityKey].Nodup
    decide)
  have hparse : parse? s.toToml = some t := by
    rw [parse?, statements?_toToml s hlimit]
    exact ht
  have hkeywords : t.get keywordsKey [] keywordsOfToml? = some s.keywords := by
    rw [Table.get, hlookup]
    exact mapM_string s.keywords
  have hdiagnostics : t.get maxDiagnosticsKey (some 100) (fun value => value.word32?.map some) =
      some s.maxDiagnostics := by
    rw [Table.get, hlookup, hlimit]
    exact congrArg (Option.map some) (word32?_integer limit)
  have hdepth : t.get maxBlockDepthKey 64 Toml.word32? = some s.maxBlockDepth := by
    rw [Table.get, hlookup]
    exact word32?_integer s.maxBlockDepth
  have hseverity : t.get unresolvedSeverityKey .error
      (fun value => value.case?.bind Severity.ofName?) = some s.unresolvedSeverity := by
    rw [Table.get, hlookup]
    change Severity.ofName? s.unresolvedSeverity.name = _
    cases s.unresolvedSeverity <;> rfl
  rw [ofToml?, hparse, Option.bind_some, ofTable?]
  simp only [hkeywords, hdiagnostics, hdepth, hseverity]
  rfl

end Settings

end LabelGraph
