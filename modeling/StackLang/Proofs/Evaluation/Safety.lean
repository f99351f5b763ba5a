import StackLang.Proofs.Evaluation.Inlining
import StackLang.Proofs.Evaluation.Limits
import StackLang.Proofs.Program.Violation

namespace StackLang

/-!
# Safety of evaluations

No program makes the host fail.  A step that would is one that halts with a fault: an operand of a
kind that the signature of its operator rules out, or a misuse of frames.

* `Halt.Reported` — the ways to halt that are open to programs: a failure of one of the eight
  classes, and a loop that goes on for ever;
* `Evaluator.SafeAt` — what comes next in a machine, whatever it is, does not end otherwise;
* `Evaluator.evaluation_safe` — in every state of an evaluation, and at its end.
-/

/-! ### Reported halts -/

/-- The classes that failures of the language have. -/
def ErrorKind.classes : List ErrorKind :=
  [stackUnderflow, typeError, nameError, indexError, arityError, divisionError, syntaxError,
    recursionError]

/-- The eight classes of causes are those of the language. -/
theorem Cause.Classed.mem_classes {c : Cause} (h : c.Classed) : c.kind ∈ ErrorKind.classes := by
  have hother := h
  unfold Classed at hother
  cases hk : c.kind with
  | other code => exact absurd hk (hother code)
  | _ => decide

/-- A halt that is no fault of the host: a failure of one of the eight classes, or a loop that has
    used up its rounds. -/
def Halt.Reported (h : Halt) : Prop :=
  h = .exhausted ∨ ∃ f : Failure, h = .issue (.failure f) ∧ f.kind ∈ ErrorKind.classes

/-- Two calls end in the same way, and as calls may. -/
def Halt.Ends.reported : Halt.Ends where
  shared := Halt.Reported
  lost _ := False
  ofCause := fun _ hc => Or.inr ⟨_, rfl, hc.mem_classes⟩
  shared_map := by
    rintro h g hg (rfl | ⟨f, rfl, hf⟩)
    · exact Or.inl rfl
    · exact Or.inr ⟨g f, rfl, (hg f).symm ▸ hf⟩
  lost_map := fun _ h => h
  fault := @Halt.Ends.same.fault

/-- What is wrong with a text is wrong with its syntax. -/
theorem Program.kind_of_parse_error {text : Bytes} {f : Failure} (h : parse text = .error f) :
    f.kind = .syntaxError := by
  rcases parse_outcome text with ⟨program, hok, -⟩ | ⟨pos, g, hg, hleft⟩
  · exact absurd (h.symm.trans hok) (by simp)
  · obtain rfl := Except.error.inj (h.symm.trans hg)
    exact hleft.1.kind_eq

/-- What is wrong with a text is reported as a failure of the language. -/
theorem Evaluator.parses_reported : Halt.Ends.reported.Parses parser := by
  intro source i hi
  unfold parser at hi
  split at hi
  · exact absurd hi (by simp)
  · rename_i f hf
    obtain rfl := Except.error.inj hi
    refine Or.inr ⟨f, rfl, ?_⟩
    rw [Program.kind_of_parse_error hf]
    decide

/-! ### Ranges -/

/-- An element is found exactly at the positions that there are. -/
theorem Value.isSome_index? (v : Value) (i : Int) :
    (v.index? i).isSome = true ↔ 1 ≤ i ∧ i ≤ v.length := by
  unfold index?
  split
  · simp
    omega
  · rename_i hi
    cases v with
    | list id es =>
      simp [length, length?]
      omega
    | tuple es =>
      simp [length, length?]
      omega
    | str s =>
      simp [length, length?]
      omega
    | _ =>
      simp [length, length?]
      omega

/-- What is repeated does not become longer than the limit. -/
theorem Sequence.mul_le_maxLength {length : Nat} {n : Int64} {k : Nat}
    (h : repeatCount length n = .ok k) : length * k ≤ maxLength := by
  unfold repeatCount at h
  cases hcount : Arithmetic.count "repeat count" n with
  | error c =>
    rw [hcount] at h
    exact absurd h (by simp [bind, Except.bind])
  | ok m =>
    rw [hcount] at h
    simp only [bind, Except.bind] at h
    split at h
    · exact absurd h (by simp)
    · rename_i hsize
      obtain rfl := Except.ok.inj h
      by_cases hlength : length = 0
      · simp [hlength]
      · have hle : m ≤ maxLength / length := by
          simpa [Nat.pos_of_ne_zero hlength] using hsize
        rw [if_neg (by simpa using hlength), Nat.mul_comm]
        exact (Nat.le_div_iff_mul_le (Nat.pos_of_ne_zero hlength)).mp hle

/-- Only numbers other than zero divide. -/
theorem Arithmetic.divisor_ne_zero {a b c : Int64}
    (h : quotient a b = .ok c ∨ modulus a b = .ok c) : b ≠ 0 := by
  rintro rfl
  rcases h with h | h
  · exact absurd h (by simp [quotient])
  · exact absurd h (by simp [modulus])

/-- A string in single quotes has both of them. -/
theorem Token.two_le_of_rawString {text : Bytes} {t : Token} (ht : t ∈ Token.scan text)
    (hk : t.kind = .rawString) : 2 ≤ t.lexeme.length := by
  obtain ⟨p, hp, htoken⟩ := List.mem_filterMap.mp ht
  obtain ⟨hrole, hlexeme, -⟩ := Piece.token?_eq_some htoken
  have hlawful := (Piece.tiling_scan text).lawful p hp
  unfold Piece.Lawful at hlawful
  rw [hrole, hk] at hlawful
  obtain ⟨r, hsel, hkind⟩ := hlawful
  have hrule : ∀ r ∈ Lexicon.rules, r.kind? = some .rawString → r.pattern = .rawString := by decide
  have hmem := hsel.mem
  rw [hrule r hsel.mem_rules hkind] at hmem
  -- One quote stands in front of the rest, which ends with the other one.
  obtain ⟨b, rest, hcons, -, hrest⟩ := mem_one_mul.mp hmem
  have hne : rest ≠ [] := by
    rintro rfl
    refine Pattern.nil_notMem_mul ?_ hrest
    rintro ⟨_, -, hnil⟩
    exact absurd hnil (by simp)
  have hlen := congrArg List.length hcons
  rw [List.length_take_of_le hsel.le, List.length_cons] at hlen
  have hpos := List.length_pos_of_ne_nil hne
  rw [hlexeme]
  omega

namespace Evaluator

/-- As many names are bound as there are elements. -/
theorem length_of_assignEach {targets : List Symbol} {v : Value} {m k : Machine}
    (h : assignEach targets v m = .ok () k) :
    ∃ names, targetNames targets = .ok names ∧ names.length = v.elements.length := by
  unfold assignEach at h
  cases hnames : targetNames targets with
  | error t =>
    rw [hnames] at h
    cases h
  | ok names =>
    refine ⟨names, rfl, ?_⟩
    by_contra hne
    rw [hnames] at h
    simp only [bne_iff_ne, ne_eq, Ne.symm hne, not_false_eq_true, if_true] at h
    split at h
    · cases h
    · cases h

/-! ### States -/

/-- What comes next in a machine is safe, whatever it is. -/
structure SafeAt (ctx : Context) (m : Machine) : Prop where
  /-- A symbol does its work, or it is reported what is wrong. -/
  symbol : ∀ a h k, step .builtin ctx a m = .error h k → h.Reported
  /-- So does the target of an assignment. -/
  target : ∀ a h k, assign a m = .error h k → h.Reported
  /-- A selected overload finds as many operands as it takes, they are of the kinds that its
      signature demands, and the overload does its work with them, or it is reported what is
      wrong. -/
  operands : ∀ op ov, OperatorTable.builtin.resolve op m.stack.visible = .ok ov →
    ∃ args st, m.stack.take ov.arity = .ok (args, st) ∧ Operand.Fit ov.signature args ∧
      ∀ h k, ov.action ctx args { m with stack := st } = .error h k → h.Reported
  /-- There is a current frame. -/
  frame : ∃ f, m.current = .ok f
  /-- An invocation can be started, and left behind every program that is run in it. -/
  invocation : ∀ name scope, ∃ f k, m.enter name scope = .ok (f, k) ∧
    ∀ p, ∃ r, (Outcome.machine (ctx.run p k)).leave f = .ok r

variable {maxDepth rounds levels : Nat} {m : Machine}

/-- What comes next in a coherent machine is safe. -/
theorem safeAt_of_coherent (hm : m.Coherent) :
    SafeAt ((Evaluator.builtin parser maxDepth rounds).context levels) m := by
  have hc : ∀ d, (Simulation.depths .reported d d).Contexts
      ((Evaluator.builtin parser maxDepth rounds).context levels)
      ((Evaluator.builtin parser maxDepth rounds).context levels) :=
    context_guarded rounds .reported (Or.inl rfl) parses_reported maxDepth levels
  have ht : (Simulation.depths .reported m.depth m.depth).KeepsTable .builtin :=
    Depths.keepsTable (Or.inl rfl)
  have hlost : ∀ h, ¬ Halt.Ends.reported.lost h := fun _ h => h
  refine ⟨?_, ?_, ?_, ?_, ?_⟩
  · intro a h k herror
    refine Depths.shared_of_respects .reported hm hlost (fun _ => ?_) herror
    exact Simulation.step_respects ht (hc m.depth) rfl
  · intro a h k herror
    refine Depths.shared_of_respects .reported hm hlost (fun _ => ?_) herror
    exact Simulation.assign_respects (s := .depths .reported m.depth m.depth) rfl
  · -- The overload that is found fits, so that its operands are there.
    intro op ov hov
    obtain ⟨hmem, args, rest, hvisible, hfit⟩ := OperatorTable.mem_and_fit_of_resolve hov
    have htake : m.stack.take ov.arity = .ok (args, { m.stack with visible := rest }) := by
      rw [show ov.arity = args.length from hfit.length_eq]
      exact take_of_fit hvisible
    refine ⟨args, _, htake, hfit, fun h k herror => ?_⟩
    have hrest : (m.withVisible rest).Coherent := hm
    have hx : ∀ w, (Simulation.depths .reported m.depth m.depth).Respects Eq w
        (ov.action _ args) (ov.action _ args) := fun _ =>
      ht op ov hmem (hc m.depth) (List.forall₂_same.mpr fun _ _ => rfl) hfit
    exact Depths.shared_of_respects .reported hrest hlost hx herror
  · obtain ⟨f, rest, hf, -⟩ := hm
    exact ⟨f, by simp [Machine.current, hf]⟩
  · intro name scope
    refine ⟨_, _, Machine.enter_eq hm name scope, fun p => ⟨_, Machine.leave_eq hm ?_⟩⟩
    exact run_within (m.coherent_called name scope) levels p

/-- **Safety.** Every program that is run during an evaluation ends well, or it is reported what is
    wrong, or it is in a loop that goes on for ever; so does the evaluation itself.  In every state
    of the evaluation, what comes next is safe.  No position, size, divisor or number of targets is
    out of its range. -/
theorem evaluation_safe (maxDepth rounds : Nat) (p : Program) (scopes : Scopes Value)
    (root lists : Nat) (initial : List Value) :
    let ev := Evaluator.builtin parser maxDepth rounds
    let start := ev.opening p scopes root lists initial
    (∀ h, (ev.evaluateIn p scopes root lists initial).result = .error h → h.Reported) ∧
    (∀ c, ev.Calls start c → ∀ h k, c.outcome ev = .error h k → h.Reported) ∧
    (∀ levels m, ev.Reaches start levels m → SafeAt (ev.context levels) m) ∧
    (∀ (v : Value) i, (v.index? i).isSome = true ↔ 1 ≤ i ∧ i ≤ v.length) ∧
    (∀ length n k, Sequence.repeatCount length n = .ok k → length * k ≤ Sequence.maxLength) ∧
    (∀ a b c, Arithmetic.quotient a b = .ok c ∨ Arithmetic.modulus a b = .ok c → b ≠ 0) ∧
    (∀ targets v m k, assignEach targets v m = .ok () k →
      ∃ names, targetNames targets = .ok names ∧ names.length = v.elements.length) ∧
    (∀ text, ∀ t ∈ Token.scan text, t.kind = .rawString → 2 ≤ t.lexeme.length) := by
  intro ev start
  -- A call begins in a coherent machine, and so it is compared with itself: what it ends with is
  -- shared.
  have hcalls : ∀ c, ev.Calls start c → ∀ h k, c.outcome ev = .error h k → h.Reported := by
    intro c hc h k herror
    have hcoherent := (calls_invariant hc (Machine.coherent_opening ..) (Nat.zero_le _)).1
    refine Depths.shared_of_respects .reported hcoherent (fun _ h => h) (fun w => ?_) herror
    exact run_guarded parser rounds .reported (Or.inl rfl) parses_reported maxDepth c.levels
      c.machine.depth w c.program
  refine ⟨?_, hcalls, ?_, Value.isSome_index?, fun _ _ _ => Sequence.mul_le_maxLength,
    fun _ _ _ => Arithmetic.divisor_ne_zero, fun _ _ _ _ => length_of_assignEach,
    fun _ _ => Token.two_le_of_rawString⟩
  · intro h hresult
    obtain ⟨k, herror⟩ := Report.of_result_of_error hresult
    exact hcalls start .refl h k herror
  · intro levels m hreach
    exact safeAt_of_coherent (reaches_invariant hreach).1

/-- What comes next in the machine behind `1` is safe. -/
theorem evaluation_safe_behindOne :
    (Evaluator.builtin parser 5 5).Reaches
        ((Evaluator.builtin parser 5 5).opening [.literal (.int 1) ⟨0, 1⟩] (.root .empty)
          Machine.globals 0 []) 5 behindOne ∧
      SafeAt ((Evaluator.builtin parser 5 5).context 5) behindOne :=
  ⟨reaches_behindOne, (evaluation_safe 5 5 _ _ _ _ _).2.2.1 5 behindOne reaches_behindOne⟩

end Evaluator

end StackLang
