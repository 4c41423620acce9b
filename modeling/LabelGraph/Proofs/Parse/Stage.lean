import LabelGraph.Proofs.Parse.Order
import LabelGraph.Proofs.Parse.Safety
import LabelGraph.Proofs.Parse.Streaming

/-!
The stages of a parse. Between any two of its events a parse is in a state that the events
before it lead to, and so is a parse that has made some of its steps and not come to an end.
All these states have the form that parsing gives them, and so has the state in which a parse
ends, be it a success or not.
-/

namespace LabelGraph

/-- No token spells the label of the edges of blocks. -/
theorem tokenize_plain {source : List UInt8} {t : Token} (ht : t ∈ tokenize source) :
    t.text ≠ Keywords.containsLabel := by
  intro htext
  have hless := tokenize_less ht (by rw [htext]; decide)
  rw [htext] at hless
  exact absurd hless (by decide)

theorem script_plain {source : List UInt8} {a : Action}
    (ha : .perform a ∈ (script .item (tokenize source)).1) : a.Plain :=
  fun _ ht => tokenize_plain (script_tokens ha ht)

/-- A lawful cause is reported as a full index space, if it is one of the storage. -/
theorem Fatal.Lawful.diagnostic {cause : Fatal} (h : cause.Lawful) (limit : Option UInt32) :
    (cause.diagnostic limit).code ≠ Code.storage ∧
      ((cause.diagnostic limit).code = Code.capacity →
        ∃ e : StoreError, e.IsFull ∧ (cause.diagnostic limit).message = e.message) := by
  cases cause with
  | storage e span =>
    have hfull := h e span rfl
    have hcapacity : e.isCapacity := by
      rcases hfull with rfl | rfl <;> rfl
    rw [Fatal.diagnostic, if_pos hcapacity]
    exact ⟨(by decide : Code.capacity ≠ Code.storage), fun _ => ⟨e, hfull, rfl⟩⟩
  | corrupt span =>
    exact ⟨(by decide : Code.corrupt ≠ Code.storage),
      fun hcode => absurd hcode (by decide : Code.corrupt ≠ Code.capacity)⟩
  | unclosed span =>
    exact ⟨(by decide : Code.unclosed ≠ Code.storage),
      fun hcode => absurd hcode (by decide : Code.unclosed ≠ Code.capacity)⟩
  | tooMany span =>
    exact ⟨(by decide : Code.tooMany ≠ Code.storage),
      fun hcode => absurd hcode (by decide : Code.tooMany ≠ Code.capacity)⟩

namespace Parse

/-! Steps and stages. -/

section Steps

variable {p : Parse} {k : Nat}

/-- A parse that has come to its end is the one that was run. -/
theorem run_of_steps (h : (Parse.step^[k] p).phase.isTerminal) : Parse.step^[k] p = p.run := by
  obtain ⟨n, hrun⟩ := run_eq_steps p
  rcases Nat.le_total k n with hle | hle
  · rw [hrun, ← Nat.sub_add_cancel hle, Function.iterate_add_apply, steps_of_terminal h]
  · have hterminal : (Parse.step^[n] p).phase.isTerminal := hrun ▸ run_isTerminal p
    rw [hrun, ← Nat.sub_add_cancel hle, Function.iterate_add_apply, steps_of_terminal hterminal]

/-- A parse that goes on has played the events of the lines that it has read. -/
theorem steps_played (h : (Parse.step^[k] p).phase.isTerminal = false) :
    ∃ events, playAll events p.started = .ok () (Parse.step^[k] p).started ∧
      script .item p.rest =
        (events ++ (script .item (Parse.step^[k] p).rest).1,
          (script .item (Parse.step^[k] p).rest).2) ∧
      (events ≠ [] → p.seedError = none) := by
  induction k with
  | zero => exact ⟨[], rfl, rfl, fun hne => absurd rfl hne⟩
  | succ k ih =>
    rw [Function.iterate_succ_apply'] at h ⊢
    obtain ⟨events, hplay, hscript, -⟩ := ih (step_ongoing h)
    have hseed := seeded_ongoing h
    have hread := readStep_ongoing h
    rw [readStep_eq hseed] at hread
    obtain ⟨_, r, hline, hclose⟩ := bind_ok_iff.1 hread
    cases hstop : (Place.item.line (Parse.step^[k] p).rest).2 with
    | text =>
      rw [hstop] at hclose
      rw [finish_phase hclose] at h
      cases h
    | corrupt span =>
      rw [hstop] at hclose
      cases hclose
    | line rest =>
      rw [hstop] at hclose
      have hstep : (Parse.step^[k] p).step = { r with rest } :=
        (EStateM.Result.ok.inj hclose).2.symm
      have hnext := script_of_line (Prod.ext rfl hstop)
      refine ⟨events ++ (Place.item.line (Parse.step^[k] p).rest).1 ++ [.nextLine rest], ?_, ?_, ?_⟩
      · rw [List.append_assoc, playAll_append, bind_of_ok hplay, playAll_append,
          bind_of_ok hline, hstep]
        rfl
      · rw [hscript, hnext, hstep]
        simp
      · intro _
        exact ((text_routine events).changes_of_ok hplay).seedError.symm.trans hseed

theorem performance_phase {tokens : List Token} {q : Parse}
    (h : performance tokens p = .ok () q) : q.phase = .succeeded := by
  obtain ⟨_, r, -, hclose⟩ := bind_ok_iff.1 h
  cases hstop : (script .item tokens).2 with
  | line rest => exact absurd hstop (script_ne_line _ _ _)
  | text =>
    rw [hstop] at hclose
    exact finish_phase hclose
  | corrupt span =>
    rw [hstop] at hclose
    cases hclose

theorem performance_terminal (tokens : List Token) (p : Parse) :
    (ended (performance tokens p)).phase.isTerminal := by
  cases h : performance tokens p with
  | ok _ q =>
    rw [ended, performance_phase h]
    rfl
  | error cause q => rfl

end Steps

/-- The events that a parse has in front of it. There are none if its reserved words do not
fit into a table. -/
def planned (source : List UInt8) (settings : Settings) (table? : Option SymbolTable) :
    List Event :=
  match (opened source settings table?).seedError with
  | none => (script .item (tokenize source)).1
  | some _ => []

theorem planned_of_seeded {source : List UInt8} {settings : Settings} {table? : Option SymbolTable}
    (hseed : (opened source settings table?).seedError = none) :
    planned source settings table? = (script .item (tokenize source)).1 := by
  rw [planned, hseed]

/-- The parse is in state `p` between its events, behind these. -/
structure Stage (source : List UInt8) (settings : Settings) (table? : Option SymbolTable)
    (events : List Event) (p : Parse) : Prop where
  begins : events <+: planned source settings table?
  play : playAll events (opened source settings table?).started = .ok () p

theorem opened_ongoing (source : List UInt8) (settings : Settings) (table? : Option SymbolTable) :
    (opened source settings table?).phase.isTerminal = false := by
  rw [(opened_start source settings table?).1]
  rfl

/-- After any number of steps a parse is at a stage, or it has ended as its script does, or its
reserved words do not fit into a table. -/
theorem steps_cases (source : List UInt8) (settings : Settings) (table? : Option SymbolTable)
    (k : Nat) :
    ((Parse.step^[k] (opened source settings table?)).phase.isTerminal = false ∧
      ∃ events, Stage source settings table? events
          (Parse.step^[k] (opened source settings table?)).started ∧
        (script .item (tokenize source)).1 =
          events ++ (script .item (Parse.step^[k] (opened source settings table?)).rest).1) ∨
    Parse.step^[k] (opened source settings table?) =
      ended (performance (tokenize source) (opened source settings table?).started) ∨
    ∃ e, (opened source settings table?).seedError = some e ∧
      Parse.step^[k] (opened source settings table?) =
        (opened source settings table?).started.fail (.storage e .zero) := by
  have hongoing := opened_ongoing source settings table?
  have hrest := (opened_start source settings table?).2.2
  cases hterminal : (Parse.step^[k] (opened source settings table?)).phase.isTerminal with
  | false =>
    obtain ⟨events, hplay, hscript, hseed⟩ := steps_played hterminal
    rw [hrest] at hscript
    refine .inl ⟨rfl, events, ⟨?_, hplay⟩, congrArg Prod.fst hscript⟩
    by_cases hevents : events = []
    · rw [hevents]
      exact List.nil_prefix
    · rw [planned_of_seeded (hseed hevents), hscript]
      exact List.prefix_append ..
  | true =>
    rw [run_of_steps hterminal]
    cases hseed : (opened source settings table?).seedError with
    | none => exact .inr (.inl (by rw [run_eq hongoing hseed, hrest]))
    | some e => exact .inr (.inr ⟨e, rfl, run_of_error hongoing (readStep_unseeded hseed)⟩)

section Stages

variable {source : List UInt8} {settings : Settings} {table? : Option SymbolTable}

theorem opened_formed (htable : ∀ t ∈ table?, t.Interned) :
    (opened source settings table?).Formed {} ∧
      ∀ e, (opened source settings table?).seedError = some e → e.IsFull := by
  have hfresh {t : SymbolTable} (ht : t.Interned) (seedError : Option StoreError) :
      Formed { ofTable source settings t with seedError } {} := by
    constructor
    case room => exact ht.room
    case toSound =>
      constructor
      case dense => exact .empty
      case symbols => exact ht.valid
      all_goals simp [ofTable]
    all_goals simp [ofTable]
  cases table? with
  | some t =>
    refine ⟨hfresh (htable t rfl) none, ?_⟩
    rintro _ ⟨⟩
  | none =>
    simp only [opened, ofSource]
    split
    · next t hseeded =>
      refine ⟨hfresh (SymbolTable.seeded_interned hseeded) none, ?_⟩
      rintro _ ⟨⟩
    · next e hseeded =>
      refine ⟨hfresh .empty (some e), ?_⟩
      rintro _ ⟨⟩
      exact .inl (SymbolTable.seeded_error hseeded).1

theorem Stage.split {first second : List Event} {p : Parse}
    (h : Stage source settings table? (first ++ second) p) :
    ∃ q, Stage source settings table? first q ∧ playAll second q = .ok () p := by
  have hplay := h.play
  rw [playAll_append] at hplay
  obtain ⟨_, q, hfirst, hsecond⟩ := bind_ok_iff.1 hplay
  exact ⟨q, ⟨(List.prefix_append ..).trans h.begins, hfirst⟩, hsecond⟩

/-- The events lead to one state only. -/
theorem Stage.unique {events : List Event} {p q : Parse}
    (hp : Stage source settings table? events p) (hq : Stage source settings table? events q) :
    p = q :=
  (EStateM.Result.ok.inj (hp.play.symm.trans hq.play)).2

/-- From a stage at which it has played something, a parse plays the rest of its script. -/
theorem Stage.run_eq {events : List Event} {p : Parse} (h : Stage source settings table? events p)
    (hevents : events ≠ []) :
    ∃ more, (script .item (tokenize source)).1 = events ++ more ∧
      (opened source settings table?).run =
        ended ((do playAll more; close (script .item (tokenize source)).2) p) := by
  have hongoing := opened_ongoing source settings table?
  have hrest := (opened_start source settings table?).2.2
  have hbegins := h.begins
  cases hseed : (opened source settings table?).seedError with
  | some e =>
    rw [planned, hseed] at hbegins
    exact absurd (List.prefix_nil.1 hbegins) hevents
  | none =>
    rw [planned_of_seeded hseed] at hbegins
    obtain ⟨more, hmore⟩ := hbegins
    refine ⟨more, hmore.symm, ?_⟩
    rw [Parse.run_eq hongoing hseed, hrest, performance, ← hmore, playAll_append, bind_assoc,
      bind_of_ok h.play]

theorem Stage.next {events : List Event} {e : Event} {p q : Parse}
    (h : Stage source settings table? events p)
    (hnext : events ++ [e] <+: planned source settings table?) (hplay : Parse.play e p = .ok () q) :
    Stage source settings table? (events ++ [e]) q := by
  refine ⟨hnext, ?_⟩
  rw [playAll_append, bind_of_ok h.play, playAll_cons, bind_of_ok hplay]
  rfl

/-- A parse that succeeds has played all of its events. -/
theorem Stage.of_succeeded (h : (opened source settings table?).run.phase = .succeeded) :
    ∃ p, Stage source settings table? (script .item (tokenize source)).1 p ∧
      finish p = .ok () (opened source settings table?).run := by
  have hongoing := opened_ongoing source settings table?
  have hrest := (opened_start source settings table?).2.2
  cases hseed : (opened source settings table?).seedError with
  | some e =>
    rw [run_of_error hongoing (readStep_unseeded hseed)] at h
    cases h
  | none =>
    rw [Parse.run_eq hongoing hseed, hrest] at h ⊢
    cases hrun : performance (tokenize source) (opened source settings table?).started with
    | error cause q =>
      rw [hrun] at h
      cases h
    | ok _ q =>
      obtain ⟨_, p, hplay, hclose⟩ := bind_ok_iff.1 hrun
      refine ⟨p, ⟨by rw [planned_of_seeded hseed], hplay⟩, ?_⟩
      cases hstop : (script .item (tokenize source)).2 with
      | line rest => exact absurd hstop (script_ne_line _ _ _)
      | corrupt span =>
        rw [hstop] at hclose
        cases hclose
      | text =>
        rw [hstop] at hclose
        exact hclose

theorem planned_subset : planned source settings table? ⊆ (script .item (tokenize source)).1 := by
  unfold planned
  split
  · exact List.Subset.refl _
  · exact List.nil_subset _

section Invariant

variable {A : Action → Prop} {W : SymbolTable → List NodeRecord → Reference → Prop}
  {I : Parse → Ledger → Prop} (hI : Stable A W I)
  (hactions : ∀ a, .perform a ∈ (script .item (tokenize source)).1 → A a)
  (hstart : I (opened source settings table?).started {})

include hI hactions hstart

theorem Stage.holds {events : List Event} {p : Parse} (h : Stage source settings table? events p) :
    ∃ m, I p m := by
  have hsafe := hI.playAll_safe (C := fun _ => True) (fun _ _ => True.intro) hstart fun a ha =>
    hactions a (planned_subset (h.begins.subset ha))
  exact hsafe.ok h.play

/-- An invariant holds after any number of steps, and also behind the end of a parse. -/
theorem Stable.steps (k : Nat) : ∃ m, I (Parse.step^[k] (opened source settings table?)) m := by
  rcases steps_cases source settings table? k with ⟨-, events, hstage, -⟩ | hend | ⟨e, -, hseed⟩
  · obtain ⟨m, hp⟩ := hstage.holds hI hactions hstart
    exact ⟨m, hI.place (p := started _) _ _ _ hp⟩
  · have hsafe := hI.performance_safe (C := fun _ => True) (fun _ _ => True.intro)
      (fun _ _ => True.intro) hstart hactions
    rw [hend]
    cases hrun : performance (tokenize source) (opened source settings table?).started with
    | ok _ q => exact hsafe.ok hrun
    | error cause q =>
      obtain ⟨-, m, hq⟩ := hsafe.error hrun
      exact ⟨m, hI.fail hq cause⟩
  · rw [hseed]
    exact ⟨{}, hI.fail hstart _⟩

end Invariant

/-- What a parse does behind a stage at which it has played something. -/
theorem Stage.progress {events : List Event} {p r : Parse} {m : Ledger}
    (h : Stage source settings table? events p) (hp : p.Formed m)
    {more : List Event} (hr : Stage source settings table? (events ++ more) r) :
    ∃ m', Progress p m r m' := by
  obtain ⟨q, hq, hplay⟩ := hr.split
  obtain rfl := h.unique hq
  have hplain (a : Action) (ha : .perform a ∈ more) : a.Plain :=
    script_plain (planned_subset (hr.begins.subset (List.mem_append_right _ ha)))
  have hsafe := (progress_stable p m).playAll_safe (C := Fatal.Lawful)
    (fun hq hhalt => hhalt.lawful hq.formed) (.refl hp) hplain
  exact hsafe.ok hplay

variable (htable : ∀ t ∈ table?, t.Interned)

include htable

theorem started_formed : (opened source settings table?).started.Formed {} :=
  (opened_formed htable).1.with_place _ _ _

theorem Stage.formed {events : List Event} {p : Parse}
    (h : Stage source settings table? events p) : ∃ m, p.Formed m := by
  have hstart : (opened source settings table?).started.Formed {} := started_formed htable
  obtain ⟨m, hp⟩ := h.holds (progress_stable _ _) (fun _ => script_plain) (.refl hstart)
  exact ⟨m, hp.formed⟩

theorem steps_formed (k : Nat) :
    ∃ m, (Parse.step^[k] (opened source settings table?)).Formed m := by
  have hstart : (opened source settings table?).started.Formed {} := started_formed htable
  obtain ⟨m, hp⟩ := (progress_stable _ _).steps (fun _ => script_plain) (.refl hstart) k
  exact ⟨m, hp.formed⟩

/-- What ends a parse is lawful, and it is the last that the parse reports. -/
theorem steps_fatal (k : Nat) {d : Diagnostic}
    (hd : d ∈ (Parse.step^[k] (opened source settings table?)).diagnostics)
    (hfatal : d.code ∈ Code.fatal) :
    ∃ cause limit, Fatal.Lawful cause ∧ d = cause.diagnostic limit := by
  have hverdict := ((opened_accounted source settings table?).steps k).verdict
  have hlast := (hverdict.last d hd hfatal).1
  have hfailed := hverdict.failed.2 ⟨d, hd, hfatal⟩
  have hback {q : Parse} {cause : Fatal}
      (hq : Parse.step^[k] (opened source settings table?) = q.fail cause) :
      d = cause.diagnostic q.settings.maxDiagnostics := by
    rw [hq, fail, Array.back?_push] at hlast
    exact (Option.some.inj hlast).symm
  rcases steps_cases source settings table? k with ⟨hongoing, -⟩ | hend | ⟨e, hseed, hfail⟩
  · rw [hfailed] at hongoing
    cases hongoing
  · cases hrun : performance (tokenize source) (opened source settings table?).started with
    | ok _ q =>
      rw [hend, hrun, ended, performance_phase hrun] at hfailed
      cases hfailed
    | error cause q =>
      rw [hrun] at hend
      have hstart : (opened source settings table?).started.Formed {} := started_formed htable
      have hsafe : Safe _ Fatal.Lawful (performance (tokenize source)) _ :=
        (progress_stable _ _).performance_safe (fun hp hhalt => hhalt.lawful hp.formed)
          (fun _ hlawful => hlawful) (.refl hstart) fun _ => script_plain
      exact ⟨cause, _, (hsafe.error hrun).1, hback hend⟩
  · have hlawful : Fatal.Lawful (.storage e .zero) := by
      rintro _ _ ⟨⟩
      exact (opened_formed htable).2 e hseed
    exact ⟨_, _, hlawful, hback hfail⟩

end Stages

/-! The contract of the storage. -/

/-- The state keeps the index of this node beside the graph. -/
inductive Remembers (p : Parse) : NodeId → Prop
  | scope {n : NodeId} (h : p.scope = some n) : Remembers p n
  | block {b : Block} {n : NodeId} (hb : b ∈ p.blocks) (h : b.owner = some n) : Remembers p n
  | label {s : Symbol} {n : NodeId} (h : p.labels[s]? = some n) : Remembers p n
  | reference {r : Reference} (h : r ∈ p.pending) : Remembers p r.scope

theorem Formed.remembers {p : Parse} {m : Ledger} (hp : p.Formed m) {n : NodeId}
    (h : p.Remembers n) : n.index < p.graph.nodeCount := by
  rw [Graph.nodeCount, hp.dense.shape.size_nodes]
  cases h with
  | scope h => exact hp.scope n h
  | block hb h => exact hp.blocks _ hb n h
  | label h => exact hp.toSound.label_lt h
  | reference h => exact (hp.pending _ h).1

/-- The name of a node to be created and the names of the nodes so far. -/
def namesWith (p : Parse) (s : Symbol) : List Symbol := s :: p.graph.nodes.toList.map (·.name)

theorem Formed.names_room {p : Parse} {m : Ledger} (hp : p.Formed m) {s : Symbol} {word : String}
    (hword : p.symbols.Spells s word) (hnew : p.labels[s]? = none) :
    (p.namesWith s).Nodup ∧ (∀ r ∈ p.namesWith s, ∃ word, p.symbols.Spells r word) ∧
      p.graph.nodeCount < indexCapacity := by
  rw [namesWith, hp.names_eq, Graph.nodeCount, hp.dense.shape.size_nodes]
  refine ⟨List.nodup_cons.2 ⟨hp.name_new hnew, hp.names_nodup⟩, ?_, hp.node_room hword hnew⟩
  intro r hr
  rcases List.mem_cons.1 hr with rfl | hr
  · exact ⟨word, hword⟩
  · obtain ⟨record, hrecord, rfl⟩ := List.mem_map.1 hr
    exact hp.names record hrecord

end Parse

open Parse

/-- A parse never violates the contract of the storage. At every stage the nodes that the state
remembers are there. A node is created for a word that was just interned and is no label yet,
and then the name and those of the nodes are different symbols, so that there is room for the
node. No parse reports an internal error, and what is too much are symbols or edges. -/
theorem parse_lawful (source : List UInt8) (settings : Settings) (table? : Option SymbolTable)
    (htable : ∀ t ∈ table?, t.Interned) :
    (∀ events p, Stage source settings table? events p →
      (∀ n, p.Remembers n → n.index < p.graph.nodeCount) ∧
      ∀ word span s q, intern word span p = .ok s q → q.labels[s]? = none →
        (q.namesWith s).Nodup ∧ (∀ r ∈ q.namesWith s, ∃ word, q.symbols.Spells r word) ∧
          q.symbols.size ≤ indexCapacity ∧ q.graph.nodeCount < indexCapacity) ∧
    ∀ k, ∀ d ∈ (Parse.step^[k] (opened source settings table?)).diagnostics,
      d.code ≠ Code.storage ∧
        (d.code = Code.capacity → ∃ e : StoreError, e.IsFull ∧ d.message = e.message) := by
  constructor
  · intro events p hstage
    obtain ⟨m, hp⟩ := hstage.formed htable
    refine ⟨fun n => hp.remembers, ?_⟩
    intro word span s q hintern hnew
    cases h : SymbolTable.intern word p.symbols with
    | error e t =>
      rw [intern_refused h] at hintern
      cases hintern
    | ok s' t =>
      rw [intern_granted h] at hintern
      cases hintern
      have hq := hp.with_symbols h
      have hword := (SymbolTable.intern_ok hp.symbols h).2.1
      obtain ⟨hnodup, hspelled, hroom⟩ := hq.names_room hword hnew
      exact ⟨hnodup, hspelled, hq.room, hroom⟩
  · intro k d hd
    constructor
    · intro hcode
      have hfatal : d.code ∈ Code.fatal := hcode ▸ (by decide : Code.storage ∈ Code.fatal)
      obtain ⟨cause, limit, hlawful, rfl⟩ := steps_fatal htable k hd hfatal
      exact (hlawful.diagnostic limit).1 hcode
    · intro hcode
      have hfatal : d.code ∈ Code.fatal := hcode ▸ (by decide : Code.capacity ∈ Code.fatal)
      obtain ⟨cause, limit, hlawful, rfl⟩ := steps_fatal htable k hd hfatal
      exact (hlawful.diagnostic limit).2 hcode

/-- A label inside a block of another one, over a table of one word. -/
theorem parse_lawful_block :
    ∃ s t, SymbolTable.intern "a" .empty = .ok s t ∧ (∀ u ∈ some t, u.Interned) ∧
      ∀ k, ∀ d ∈ (Parse.step^[k]
        (opened "a: \x7b b: jmp c\n\x7d".toUTF8.toList {} (some t))).diagnostics,
          d.code ≠ Code.storage := by
  cases hintern : SymbolTable.intern "a" .empty with
  | error e t => exact absurd (SymbolTable.intern_error hintern).2 (by decide)
  | ok s t =>
    have htable : ∀ u ∈ some t, u.Interned := by
      rintro _ ⟨⟩
      exact .intern .empty hintern
    exact ⟨s, t, rfl, htable, fun k d hd => ((parse_lawful _ _ _ htable).2 k d hd).1⟩

end LabelGraph
