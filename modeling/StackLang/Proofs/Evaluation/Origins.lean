import StackLang.Proofs.Program.Spans
import StackLang.Proofs.Evaluation.Inspection
import StackLang.Proofs.Evaluation.Strings
import StackLang.Proofs.Evaluation.Continuation

namespace StackLang

/-!
# Where failures come from

A failure is reported at the position of a symbol.  Positions do not tell which text they are
positions of: those of the symbols of a string that is evaluated move into the message, but those
inside a block that the string leaves behind do not.

* `Program.Has`, `Program.HasInBlock` — a program has a symbol at some depth, or inside a block;
* `Value.Placed`, `Symbol.Placed` — where the symbols of all blocks in a value stand, and those of
  a program;
* `Invariant.placed` — evaluations make no new positions;
* `Evaluator.run_placed` — failures are reported at positions of the program, or at those that
  blocks had before;
* `Evaluator.failure_origins` — a failure is reported at a symbol of the program, or at one inside
  a block of a string that was evaluated.
-/

/-! ### Symbols at all depths -/

/-- A range that is not empty is a position. -/
theorem Span.isNone_of_lt {span : Span} (h : span.start < span.stop) : span.isNone = false := by
  refine beq_eq_false_iff_ne.mpr fun hnone => ?_
  rw [hnone] at h
  exact Nat.lt_irrefl 0 h

namespace Program

/-- A level of a level is a level. -/
theorem Level.trans {program p q : Program} (hp : Level program p) (hq : Level p q) :
    Level program q := by
  induction hq with
  | top => exact hp
  | inside _ hs ih => exact .inside ih hs

/-- A program has a symbol at some depth. -/
def Has (program : Program) (s : Symbol) : Prop := ∃ p, Level program p ∧ s ∈ p

/-- A program has a symbol at some depth inside a block. -/
def HasInBlock (program : Program) (s : Symbol) : Prop :=
  ∃ body span, program.Has (.literal (.block body) span) ∧ Has body s

variable {program : Program} {s t : Symbol}

/-- A program has its own symbols. -/
theorem has_of_mem (hs : s ∈ program) : program.Has s := ⟨program, .top, hs⟩

/-- A program has the symbols inside a symbol that it has. -/
theorem Has.inside (hs : program.Has s) (ht : Has s.body t) : program.Has t := by
  obtain ⟨p, hp, hmem⟩ := hs
  obtain ⟨q, hq, htq⟩ := ht
  exact ⟨q, (Level.inside hp hmem).trans hq, htq⟩

/-- A symbol inside a block of a program is one that it has. -/
theorem HasInBlock.has (hs : program.HasInBlock s) : program.Has s := by
  obtain ⟨body, span, hblock, hs⟩ := hs
  exact hblock.inside hs

/-- A program in which nothing is between brackets has no other symbols than its own. -/
theorem mem_of_has (hflat : ∀ s ∈ program, s.body = []) (hs : program.Has s) : s ∈ program := by
  obtain ⟨p, hp, hmem⟩ := hs
  have hlevel : p = program ∨ p = [] := by
    clear hmem
    induction hp with
    | top => exact Or.inl rfl
    | inside _ hs ih =>
      rcases ih with rfl | rfl
      · exact Or.inr (hflat _ hs)
      · exact absurd hs List.not_mem_nil
  rcases hlevel with rfl | rfl
  · exact hmem
  · exact absurd hmem List.not_mem_nil

/-- The symbols of a program that is parsed stand inside its text and are not empty, at all
    depths. -/
theorem extent_of_has {text : Bytes} (h : parse text = .ok program) (hs : program.Has s) :
    s.span.start < s.span.stop ∧ s.span.stop ≤ text.length := by
  obtain ⟨p, hp, hmem⟩ := hs
  obtain ⟨ts, hts, hlevel⟩ := (sequence_of_parse h).2.exists_level hp
  obtain ⟨us, hus, hatom⟩ := hlevel.exists_atom hmem
  have hpart := hus.trans hts
  obtain ⟨-, ⟨u, hu, hstop⟩, hlt⟩ := hatom.exists_ends ((Token.ordered_scan text).part hpart)
  refine ⟨hlt, ?_⟩
  rw [hstop]
  exact Token.stop_le_length (hpart.subset hu)

/-- The symbols of a program that is parsed have positions, at all depths. -/
theorem span_of_has {text : Bytes} (h : parse text = .ok program) (hs : program.Has s) :
    s.span.isNone = false :=
  Span.isNone_of_lt (extent_of_has h hs).1

end Program

/-! ### Positions inside values -/

mutual

/-- All symbols of the blocks in a value stand at given positions. -/
inductive Value.Placed (S : Span → Prop) : Value → Prop
  | bool (b : Bool) : Value.Placed S (.bool b)
  | int (n : Int64) : Value.Placed S (.int n)
  | float (x : Float) : Value.Placed S (.float x)
  | str (s : Bytes) : Value.Placed S (.str s)
  | list {id : Nat} {es : List Value} (h : ∀ e ∈ es, Value.Placed S e) :
    Value.Placed S (.list id es)
  | tuple {es : List Value} (h : ∀ e ∈ es, Value.Placed S e) : Value.Placed S (.tuple es)
  | block {p : Program} (h : ∀ s ∈ p, Symbol.Placed S S s) : Value.Placed S (.block p)

/-- A symbol and those of the groups in it stand at positions of one kind, and those inside the
    blocks in it at positions of another one. -/
inductive Symbol.Placed (S : Span → Prop) : (Span → Prop) → Symbol → Prop
  | literal {T : Span → Prop} {v : Value} {span : Span} (h : T span) (hv : Value.Placed S v) :
    Symbol.Placed S T (.literal v span)
  | name {T : Span → Prop} {s : Bytes} {span : Span} (h : T span) : Symbol.Placed S T (.name s span)
  | operator {T : Span → Prop} {s : Bytes} {span : Span} (h : T span) :
    Symbol.Placed S T (.operator s span)
  | group {T : Span → Prop} {k : Group} {p : Program} {span : Span} (h : T span)
    (hp : ∀ s ∈ p, Symbol.Placed S T s) : Symbol.Placed S T (.group k p span)
  | blank {T : Span → Prop} {span : Span} (h : T span) : Symbol.Placed S T (.blank span)

end

variable {S T U : Span → Prop}

/-- A block is placed if its symbols are. -/
theorem Value.placed_block_iff {p : Program} :
    (Value.block p).Placed S ↔ ∀ s ∈ p, s.Placed S S := by
  refine ⟨fun h => ?_, .block⟩
  cases h
  assumption

theorem Symbol.Placed.span {s : Symbol} (h : s.Placed S T) : T s.span := by
  cases h <;> assumption

theorem Symbol.Placed.value {v : Value} {span : Span} (h : (Symbol.literal v span).Placed S T) :
    v.Placed S := by
  cases h
  assumption

/-- The symbols of a group that is placed are placed. -/
theorem Symbol.Placed.members {k : Group} {p : Program} {span : Span}
    (h : (Symbol.group k p span).Placed S T) : ∀ s ∈ p, s.Placed S T := by
  cases h
  assumption

/-- More positions may be allowed for. -/
theorem Symbol.Placed.mono (hTU : ∀ x, T x → U x) : ∀ {s : Symbol}, s.Placed S T → s.Placed S U
  | _, .literal h hv => .literal (hTU _ h) hv
  | _, .name h => .name (hTU _ h)
  | _, .operator h => .operator (hTU _ h)
  | _, .group h hp => .group (hTU _ h) fun s hs => (hp s hs).mono hTU
  | _, .blank h => .blank (hTU _ h)

/-- The elements of a value that is placed are placed. -/
theorem Value.Placed.elements {v : Value} (h : v.Placed S) : ∀ e ∈ v.elements, e.Placed S := by
  cases h with
  | list h => exact h
  | tuple h => exact h
  | str s =>
    intro e he
    obtain ⟨c, -, rfl⟩ := List.mem_map.mp he
    exact .str _
  | _ => exact fun e he => absurd he List.not_mem_nil

namespace Grammar

/-- A symbol denoted by a token is placed if its position is one of those allowed for. -/
theorem placed_of_denotes {t : Token} {s : Symbol} (h : t.Denotes s) (hs : T s.span) :
    s.Placed S T := by
  cases h with
  | integer _ _ => exact .literal hs (.int _)
  | float _ _ => exact .literal hs (.float _)
  | string _ _ => exact .literal hs (.str _)
  | rawString _ => exact .literal hs (.str _)
  | true _ _ => exact .literal hs (.bool _)
  | false _ _ => exact .literal hs (.bool _)
  | name _ => exact .name hs
  | keyword _ _ _ => exact .operator hs
  | operator _ => exact .operator hs

mutual

/-- A part of a program stands where the symbols of the program do, and its blocks where those
    inside blocks do. -/
theorem Sequence.placed {T : Span → Prop} {ts : List Token} {p program : Program} :
    Sequence ts p → (∀ s ∈ p, program.Has s) → (∀ s, program.Has s → T s.span) →
    (∀ s, program.HasInBlock s → S s.span) → ∀ s ∈ p, s.Placed S T
  | .nil, _, _, _ => fun _ hs => absurd hs List.not_mem_nil
  | .cons ha htail, hp, hT, hS => by
    have hfirst := ha.placed (hp _ List.mem_cons_self) hT hS
    have hrest := htail.placed (fun s hs => hp s (List.mem_cons_of_mem _ hs)) hT hS
    exact List.forall_mem_cons.mpr ⟨hfirst, hrest⟩

/-- What is derived from tokens is placed if the symbols that the program has are. -/
theorem Atom.placed {T : Span → Prop} {ts : List Token} {s : Symbol} {program : Program} :
    Atom ts s → program.Has s → (∀ t, program.Has t → T t.span) →
    (∀ t, program.HasInBlock t → S t.span) → s.Placed S T
  | .leaf h, hs, hT, _ => placed_of_denotes h (hT s hs)
  | .list _ _ h, hs, hT, hS =>
    .group (hT _ hs) (h.placed (fun _ ht => hs.inside (Program.has_of_mem ht)) hT hS)
  | .tuple _ _ h, hs, hT, hS =>
    .group (hT _ hs) (h.placed (fun _ ht => hs.inside (Program.has_of_mem ht)) hT hS)
  | .block _ _ h, hs, hT, hS => by
    -- Inside a block all symbols are inside one, however deep they are.
    have hbody : ∀ t, Program.Has _ t → S t.span := fun t ht => hS t ⟨_, _, hs, ht⟩
    exact .literal (hT _ hs) (.block (h.placed (fun _ => Program.has_of_mem) hbody
      fun t ht => hbody t ht.has))

end

end Grammar

/-- **Parsed programs** stand where their symbols do, and their blocks where those inside blocks
    do. -/
theorem Program.placed_of_parse {text : Bytes} {p : Program} (h : parse text = .ok p)
    (hT : ∀ s, p.Has s → T s.span) (hS : ∀ s, p.HasInBlock s → S s.span) :
    ∀ s ∈ p, s.Placed S T :=
  (sequence_of_parse h).2.placed (fun _ => has_of_mem) hT hS

/-! ### Positions of failures -/

/-- A failure has no position yet, or one of given positions. -/
def Failure.Placed (T : Span → Prop) (f : Failure) : Prop := f.span.isNone = true ∨ T f.span

/-- A halt whose failure, if it is one, is placed. -/
def Halt.Placed (T : Span → Prop) (h : Halt) : Prop :=
  ∀ i f, h = .issue i → i.failure? = some f → f.Placed T

/-- A failure is placed after a change, if it was before. -/
theorem Halt.Placed.map {g : Failure → Failure} (hg : ∀ f, f.Placed T → (g f).Placed U) {h : Halt}
    (hh : h.Placed T) : (h.map g).Placed U := by
  intro i f hi hf
  cases h with
  | issue j =>
    obtain rfl := Halt.issue.inj hi
    cases j with
    | plain _ => exact absurd hf (by simp [Issue.map, Issue.failure?])
    | _ =>
      obtain rfl := Option.some.inj hf
      exact hg _ (hh _ _ rfl rfl)
  | _ => exact absurd hi (by simp [Halt.map])

/-- A failure stays placed when it is reported for a symbol that is. -/
theorem Failure.Placed.annotate {s : Symbol} (hs : T s.span) {f : Failure} (hf : f.Placed T) :
    (Evaluator.annotate s f).Placed T := by
  unfold Placed
  rw [Evaluator.annotate_span, Span.orElse]
  split
  · exact Or.inr hs
  · exact hf

/-- A failure that has left a string has no position. -/
theorem Failure.placed_relocated (f : Failure) : f.relocated.Placed T := by
  unfold relocated
  split
  · exact Or.inl ‹_›
  · exact Or.inl rfl

/-- All halts are placed somewhere. -/
theorem Halt.placed_true (h : Halt) : h.Placed fun _ => True := fun _ _ _ _ => Or.inr trivial

/-- A failure moved out of a string has no position, so that it is placed. -/
theorem Halt.placed_relocated (h : Halt) : (h.map Failure.relocated).Placed T :=
  h.placed_true.map fun f _ => f.placed_relocated

/-! ### The invariant -/

/-- **Evaluations make no new positions.**  The symbols of all blocks stand at given positions, and
    those of the programs that are run at these or others. -/
def Invariant.placed (S T : Span → Prop) (hST : ∀ x, S x → T x) : Invariant where
  value := Value.Placed S
  symbol := Symbol.Placed S T
  halt := Halt.Placed T
  bool := .bool
  int := .int
  float := .float
  str := .str
  list := .list
  tuple := .tuple
  elements := Value.Placed.elements
  join := fun hp hq => .block fun s hs => (List.mem_append.mp hs).elim
    (Value.placed_block_iff.mp hp s) (Value.placed_block_iff.mp hq s)
  block := fun hp s hs => (Value.placed_block_iff.mp hp s hs).mono hST
  literal := Symbol.Placed.value
  group := Symbol.Placed.members
  fault := fun _ _ _ h => Halt.noConfusion h
  exhausted := fun _ _ h => Halt.noConfusion h
  ofCause := by
    intro c op i f hi hf
    obtain rfl := Halt.issue.inj hi
    obtain rfl := Option.some.inj hf
    exact Or.inl rfl
  annotate := fun hs hh => hh.map fun _ => .annotate hs.span
  relocated := fun {h} _ => h.placed_relocated

/-- What a machine holds stands where it does, wherever programs stand. -/
theorem Invariant.Holds.placed {hST : ∀ x, S x → T x} {hSU : ∀ x, S x → U x} {m : Machine}
    (h : (placed S T hST).Holds m) : (Invariant.placed S U hSU).Holds m :=
  ⟨h.stack, h.bound⟩

/-! ### Runs -/

namespace Evaluator

variable {parse : Parser} {maxDepth rounds levels : Nat} {p : Program} {m k : Machine} {h : Halt}

/-- All blocks of the programs that a parser makes stand at given positions. -/
def ParsesPlaced (S : Span → Prop) (parse : Parser) : Prop :=
  (Invariant.placed S (fun _ => True) fun _ _ => trivial).Parsed parse

/-- A step that moves the positions of failures into their messages keeps the invariant, wherever
    the failures came from. -/
theorem relocated_placed {hST : ∀ x, S x → T x} {x : Eval Unit} (w : Unit)
    (hx : ∀ m, (Invariant.placed S T hST).Holds m →
      (Invariant.placed S T hST).Holds (Outcome.machine (x m))) :
    (Simulation.invariant (.placed S T hST)).Respects Eq w
      (Eval.mapIssue (Issue.map Failure.relocated) x)
      (Eval.mapIssue (Issue.map Failure.relocated) x) := by
  rintro m _ ⟨hm, rfl⟩
  have hend := hx m hm
  rw [Eval.mapIssue_eq]
  cases hxm : x m with
  | ok a k =>
    rw [hxm] at hend
    exact ⟨rfl, hend, rfl⟩
  | error g k =>
    rw [hxm] at hend
    exact Or.inr ⟨⟨g.placed_relocated, rfl⟩, hend, rfl⟩

/-- **An evaluated string** leaves only blocks that stand at given positions, and a failure that
    leaves it has no position. -/
theorem evalSource_placed (hparse : ParsesPlaced S parse) (maxDepth rounds levels : Nat)
    (hST : ∀ x, S x → T x) (text : Bytes) (w : Unit) :
    (Simulation.invariant (.placed S T hST)).Respects Eq w
      (((Evaluator.builtin parse maxDepth rounds).context levels).evalSource text)
      (((Evaluator.builtin parse maxDepth rounds).context levels).evalSource text) := by
  refine relocated_placed w fun m hm => ?_
  have hcontext : ((Evaluator.builtin parse maxDepth rounds).context levels).parse text
      = parse text := rfl
  rw [hcontext]
  cases hp : parse text with
  | ok q =>
    -- Inside the string, symbols may stand anywhere; the blocks that they leave may not.
    exact (run_holds hparse (fun i => Halt.placed_true (.issue i)) maxDepth rounds levels
      (hparse text q hp) hm.placed).placed
  | error i => exact hm

/-- **A program that stands at given positions**, as all blocks do, fails at one of these if it
    fails at a position at all. -/
theorem run_placed (hparse : ParsesPlaced S parse) (maxDepth rounds : Nat) :
    ∀ (levels : Nat) (w : Unit) (p : Program), (∀ s ∈ p, s.Placed S S) →
      (Simulation.invariant (.placed S S fun _ => id)).Respects Eq w
        ((Evaluator.builtin parse maxDepth rounds).run levels p)
        ((Evaluator.builtin parse maxDepth rounds).run levels p)
  | 0, _, _, _ => .throw ⟨Invariant.exhausted _, rfl⟩
  | levels + 1, w, p, hp => by
    have hc : (Simulation.invariant (.placed S S fun _ => id)).Contexts
        ((Evaluator.builtin parse maxDepth rounds).context levels)
        ((Evaluator.builtin parse maxDepth rounds).context levels) := by
      refine ⟨fun w text => evalSource_placed hparse maxDepth rounds levels _ text w, ?_,
        fun _ => Or.inl rfl⟩
      intro w q _ hq
      obtain ⟨hall, rfl⟩ := Invariant.program_iff.mp hq
      exact run_placed hparse maxDepth rounds levels w q hall
    have ht : (Simulation.invariant (.placed S S fun _ => id)).KeepsTable .builtin :=
      Simulation.keepsTable_builtin _ ⟨Invariant.exhausted _, rfl⟩
    refine (Invariant.nests maxDepth).nested (fun w => ?_) w
    exact Simulation.steps_respects ht hc (Invariant.program_iff.mpr ⟨hp, rfl⟩)

/-- A program whose symbols are placed, run in a machine whose values are, fails at one of the
    positions. -/
theorem placed_of_run (hparse : ParsesPlaced S parse) (hp : ∀ s ∈ p, s.Placed S S)
    (hm : (Invariant.placed S S fun _ => id).Holds m)
    (hrun : (Evaluator.builtin parse maxDepth rounds).run levels p m = .error h k) :
    h.Placed S := by
  have halike := run_placed hparse maxDepth rounds levels () p hp m m ⟨hm, rfl⟩
  rw [hrun] at halike
  exact (halike.resolve_left id).1.1

/-- A program whose symbols have positions fails with a failure that has one. -/
theorem located_of_run (hp : ∀ s ∈ p, s.span.isNone = false) (hlow : m.depth < maxDepth)
    (hrun : (Evaluator.builtin parse maxDepth rounds).run (levels + 1) p m = .error h k) :
    h.Located := by
  rw [run_succ, if_neg (Nat.not_le.mpr hlow)] at hrun
  cases hsteps : steps .builtin ((Evaluator.builtin parse maxDepth rounds).context levels) p
      (m.atDepth (m.depth + 1)) with
  | ok _ r =>
    rw [hsteps] at hrun
    exact absurd hrun (by simp [Outcome.onMachine])
  | error g r =>
    rw [hsteps] at hrun
    injection hrun with hg _
    rw [← hg]
    exact steps_located hp hsteps

/-- The position of a symbol of a program, at any depth, or of one inside a block of a string. -/
def Origin (p : Program) (texts : Bytes → Prop) (span : Span) : Prop :=
  (∃ s, p.Has s ∧ span = s.span) ∨
    ∃ text q s, texts text ∧ Program.parse text = .ok q ∧ q.HasInBlock s ∧ span = s.span

/-- A parser that refuses all strings but some makes blocks that stand where those of these strings
    do. -/
theorem parsesPlaced_refusing (p : Program) (texts : Bytes → Prop) :
    ParsesPlaced (Origin p texts) (refusing (fun text => ¬ texts text) parser) := by
  intro text q hq
  by_cases ht : texts text
  · rw [refusing_of_not (not_not_intro ht)] at hq
    have hparse := parser_eq_ok.mp hq
    exact Program.placed_of_parse hparse (fun _ _ => trivial) fun s hs =>
      Or.inr ⟨text, q, s, ht, hparse, hs, rfl⟩
  · rw [refusing_of_refused ht] at hq
    exact absurd hq (by simp)

/-- **Where failures come from.**  If an evaluation in a fresh root scope fails, then with a failure
    that is reported at the position of a symbol: one of the program, at any depth, or else one
    inside a block of a string that is evaluated. -/
theorem failure_origins {source : Bytes} {memory : Memory} (hparse : Program.parse source = .ok p)
    (hdepth : 0 < maxDepth)
    (heval : (Evaluator.builtin parser maxDepth rounds).evaluateText source .empty []
      = (.error h, memory))
    (hends : h ≠ .exhausted) :
    ∃ f, h = .issue (.failure f) ∧
      ((∃ s, p.Has s ∧ f.span = s.span) ∨
        ∃ text q s, (Evaluator.builtin parser maxDepth rounds).Evaluates p .empty [] text ∧
          Program.parse text = .ok q ∧ q.HasInBlock s ∧ f.span = s.span) := by
  rw [evaluateText_of_parse hparse] at heval
  obtain ⟨k, hrun, -⟩ := evaluate_eq_error_iff.mp heval
  obtain ⟨f, rfl, -⟩ := (reported_of_run (Machine.coherent_opening ..) hrun).resolve_left hends
  refine ⟨f, rfl, ?_⟩
  have hlocated := located_of_run (fun s hs => Program.span_of_has hparse (Program.has_of_mem hs))
    hdepth hrun
  -- All other strings may be refused, so that no other blocks come up.
  let texts := (Evaluator.builtin parser maxDepth rounds).Evaluates p .empty []
  have hprogram : ∀ s ∈ p, s.Placed (Origin p texts) (Origin p texts) :=
    Program.placed_of_parse hparse (fun s hs => Or.inl ⟨s, hs, rfl⟩)
      fun s hs => Or.inl ⟨s, hs.has, rfl⟩
  have hstart : (Invariant.placed (Origin p texts) (Origin p texts) fun _ => id).Holds
      (start .empty []) :=
    ⟨by simp [start, Machine.start, Stack.empty, Stack.pushAll],
      .root fun _ _ hv => absurd hv (by simp [Memory.empty, Table.get?, Table.empty])⟩
  have hplaced := placed_of_run (parsesPlaced_refusing p texts) hprogram hstart
    ((run_evaluated maxDepth rounds p .empty []).trans hrun)
  exact (hplaced _ f rfl rfl).resolve_left (by simp [hlocated _ f rfl rfl])

/-- A string that leaves a block, which is evaluated in turn; the name in it is bound nowhere. -/
def blockInString : Bytes := utf8 "\"\x7b x \x7d\" % %"

/-- The program of that text, in which the block is part of a string. -/
def blockInStringProgram : Program :=
  [.literal (.str (utf8 "\x7b x \x7d")) ⟨0, 7⟩, .operator (utf8 "%") ⟨8, 9⟩,
    .operator (utf8 "%") ⟨10, 11⟩]

/-- A block that outlives its string fails at a position inside the string. -/
theorem failure_origins_block :
    let failure : Failure := { cause := .unbound (utf8 "x"), span := ⟨2, 3⟩ }
    Program.parse blockInString = .ok blockInStringProgram ∧ 0 < 5 ∧
      (Evaluator.builtin parser 5 5).evaluateText blockInString .empty []
        = (.error (.issue (.failure failure)), .empty) ∧
      ∃ f, Halt.issue (.failure failure) = .issue (.failure f) ∧
        ((∃ s, blockInStringProgram.Has s ∧ f.span = s.span) ∨
          ∃ text q s, (Evaluator.builtin parser 5 5).Evaluates blockInStringProgram .empty [] text ∧
            Program.parse text = .ok q ∧ q.HasInBlock s ∧ f.span = s.span) := by
  intro failure
  have hparse : Program.parse blockInString = .ok blockInStringProgram := rfl
  have heval : (Evaluator.builtin parser 5 5).evaluateText blockInString .empty []
      = (.error (.issue (.failure failure)), .empty) := rfl
  exact ⟨hparse, by decide, heval, failure_origins hparse (by decide) heval (by simp)⟩

/-- The failure is reported at a position inside the string.  No symbol of the program stands
    there. -/
theorem block_outlives_string :
    let failure : Failure := { cause := .unbound (utf8 "x"), span := ⟨2, 3⟩ }
    Program.parse blockInString = .ok blockInStringProgram ∧
      standard.evaluateText blockInString .empty []
        = (.error (.issue (.failure failure)), .empty) ∧
      ¬ ∃ s, blockInStringProgram.Has s ∧ failure.span = s.span := by
  intro failure
  refine ⟨rfl, rfl, ?_⟩
  rintro ⟨s, hs, hspan⟩
  have hnone : ∀ s ∈ blockInStringProgram, failure.span ≠ s.span := by decide
  exact hnone s (Program.mem_of_has (by decide) hs) hspan

end Evaluator

end StackLang
