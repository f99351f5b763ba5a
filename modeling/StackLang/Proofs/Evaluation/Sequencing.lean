import StackLang.Proofs.Simulation.Run

namespace StackLang

/-!
# Programs one behind the other

* `Evaluator.steps_front` — what a program does first, and what is left of it then;
* `Evaluator.Dangles` — a program comes to a sign of assignment that is its last symbol;
* `Evaluator.steps_append` — unless the first program dangles, two programs one behind the other
  are run one behind the other;
* `Halt.Located`, `Evaluator.steps_located` — failures of symbols that have positions have
  positions, and are reported as they are.
-/

namespace Evaluator

variable {t : OperatorTable} {ctx : Context}

/-! ### The front of a program -/

/-- A symbol that is no sign of assignment does its work, and the rest of the program follows. -/
theorem steps_cons {sym : Symbol} (h : isAssign sym = false) (rest : Program) :
    steps t ctx (sym :: rest)
      = Eval.mapIssue (Issue.map (annotate sym)) (step t ctx sym) >>= fun _ => steps t ctx rest := by
  rw [steps.eq_def]
  simp only [h]
  rfl

/-- A program is a step that is reported for its first symbol, and then a rest; only a sign of
    assignment that nothing follows is none. -/
theorem steps_front (t : OperatorTable) (ctx : Context) (sym : Symbol) (rest : Program)
    (h : ¬ (isAssign sym = true ∧ rest = [])) :
    ∃ (x : Eval Unit) (used rest' : Program), used ≠ [] ∧ sym :: rest = used ++ rest' ∧
      ∀ tail, steps t ctx (used ++ tail)
        = Eval.mapIssue (Issue.map (annotate sym)) x >>= fun _ => steps t ctx tail := by
  by_cases hs : isAssign sym = true
  · cases rest with
    | nil => exact absurd ⟨hs, rfl⟩ h
    | cons target rest =>
      refine ⟨assign target, [sym, target], rest, by simp, rfl, fun tail => ?_⟩
      show steps t ctx (sym :: target :: tail) = _
      rw [steps]
      simp only [hs, if_true]
  · refine ⟨step t ctx sym, [sym], rest, by simp, rfl, fun tail => ?_⟩
    exact steps_cons (by simpa using hs) tail

/-- A sign of assignment at the end of a program lacks its target. -/
theorem steps_of_assign {sign : Symbol} (h : isAssign sign = true) (m : Machine) :
    steps t ctx [sign] m
      = .error (.issue (.failure (annotate sign { cause := .missingTarget }))) m := by
  rw [steps.eq_def]
  simp only [h, if_true]
  rfl

/-- Behind a step that succeeds, the next one follows in the machine it leaves. -/
theorem bind_of_ok {α β : Type} {x : Eval α} {f : α → Eval β} {m k : Machine} {a : α}
    (h : x m = .ok a k) : (x >>= f) m = f a k := by
  show EStateM.bind x f m = _
  simp only [EStateM.bind, h]

theorem bind_of_error {α β : Type} {x : Eval α} {f : α → Eval β} {m k : Machine} {g : Halt}
    (h : x m = .error g k) : (x >>= f) m = .error g k := by
  show EStateM.bind x f m = _
  simp only [EStateM.bind, h]

/-- Two steps succeed one after the other. -/
theorem exists_of_bind_ok {α β : Type} {x : Eval α} {f : α → Eval β} {m l : Machine} {b : β}
    (h : (x >>= f) m = .ok b l) : ∃ a k, x m = .ok a k ∧ f a k = .ok b l := by
  cases hx : x m with
  | error g k =>
    rw [bind_of_error hx] at h
    exact absurd h nofun
  | ok a k => exact ⟨a, k, rfl, (bind_of_ok hx).symm.trans h⟩

/-! ### Sequencing -/

/-- A program comes to a sign of assignment that is its last symbol. -/
def Dangles (t : OperatorTable) (ctx : Context) (p : Program) (m : Machine) : Prop :=
  ∃ before sign k, p = before ++ [sign] ∧ isAssign sign = true ∧ steps t ctx before m = .ok () k

/-- **Sequencing.** Two programs one behind the other, unless the second one would lose its first
    symbol to the first one. -/
theorem steps_append (p q : Program) (m : Machine) (h : ¬ Dangles t ctx p m) :
    steps t ctx (p ++ q) m = (steps t ctx p >>= fun _ => steps t ctx q) m := by
  match p with
  | [] => rfl
  | sym :: rest =>
    have hfront : ¬ (isAssign sym = true ∧ rest = []) := by
      rintro ⟨hs, rfl⟩
      exact h ⟨[], sym, m, rfl, hs, rfl⟩
    obtain ⟨x, used, rest', hused, hp, hsteps⟩ := steps_front t ctx sym rest hfront
    have hlen : rest'.length < (sym :: rest).length := by
      have := List.length_pos_of_ne_nil hused
      rw [hp, List.length_append]
      omega
    rw [hp, List.append_assoc, hsteps, hsteps]
    cases hx : Eval.mapIssue (Issue.map (annotate sym)) x m with
    | error g k => rw [bind_of_error hx, bind_of_error (bind_of_error hx)]
    | ok _ k =>
      have hrest : ¬ Dangles t ctx rest' k := by
        rintro ⟨before, sign, l, rfl, hsign, hbefore⟩
        refine h ⟨used ++ before, sign, l, by rw [hp, List.append_assoc], hsign, ?_⟩
        rw [hsteps, bind_of_ok hx, hbefore]
      rw [bind_of_ok hx, steps_append rest' q k hrest]
      -- The front of the first program is in front of both of them.
      show EStateM.bind _ _ k = EStateM.bind (EStateM.bind _ _) _ m
      simp only [EStateM.bind, hx]
termination_by p.length
decreasing_by exact hlen

/-- A program that goes well has not come to a sign of assignment at its end. -/
theorem not_dangles_of_ok {p : Program} {m k : Machine} (h : steps t ctx p m = .ok () k) :
    ¬ Dangles t ctx p m := by
  intro hp
  obtain ⟨before, sign, l, rfl, hsign, hbefore⟩ := id hp
  rw [steps_append before [sign] m (not_dangles_of_ok hbefore), bind_of_ok hbefore,
    steps_of_assign hsign] at h
  exact absurd h (by simp)
termination_by p.length
decreasing_by simp_all

/-- What is reported of a program that comes to a sign of assignment at its end. -/
theorem steps_of_dangles {before : Program} {sign : Symbol} {m k : Machine}
    (hsign : isAssign sign = true) (hbefore : steps t ctx before m = .ok () k) :
    steps t ctx (before ++ [sign]) m
      = .error (.issue (.failure (annotate sign { cause := .missingTarget }))) k := by
  rw [steps_append before [sign] m (not_dangles_of_ok hbefore), bind_of_ok hbefore,
    steps_of_assign hsign]

end Evaluator

/-! ### Positions of failures -/

/-- A halt whose failure, if it is one, has a position. -/
def Halt.Located (h : Halt) : Prop :=
  ∀ i f, h = .issue i → i.failure? = some f → f.span.isNone = false

namespace Evaluator

variable {t : OperatorTable} {ctx : Context}

/-- A failure is reported where it was, or at the symbol if it had no position. -/
theorem annotate_span (s : Symbol) (f : Failure) :
    (annotate s f).span = f.span.orElse s.span := by
  have hop : ∀ op, (f.withOp op).span = f.span := by
    intro op
    unfold Failure.withOp
    split <;> rfl
  unfold annotate
  split
  · split
    · exact congrArg (Span.orElse · _) (hop _)
    · rfl
  · rename_i hsome
    exact (if_neg hsome).symm

/-- A failure reported for a symbol with a position has a position. -/
theorem annotate_located {s : Symbol} (hs : s.span.isNone = false) (f : Failure) :
    (annotate s f).span.isNone = false := by
  rw [annotate_span, Span.orElse]
  split
  · exact hs
  · exact Bool.eq_false_iff.mpr ‹_›

/-- All halts of a symbol with a position are located. -/
theorem located_map {s : Symbol} (hs : s.span.isNone = false) (h : Halt) :
    (h.map (annotate s)).Located := by
  intro i f hi hf
  cases h with
  | issue j =>
    obtain rfl := Halt.issue.inj hi
    cases j with
    | plain _ => exact absurd hf (by simp [Issue.map, Issue.failure?])
    | _ =>
      obtain rfl := Option.some.inj hf
      exact annotate_located hs _
  | _ => exact absurd hi (by simp [Halt.map])

/-- A failure that has a position is not reported for another symbol. -/
theorem map_of_located {h : Halt} (hl : h.Located) (s : Symbol) : h.map (annotate s) = h := by
  have hsame : ∀ f : Failure, f.span.isNone = false → annotate s f = f := by
    intro f hf
    unfold annotate
    simp [hf]
  cases h with
  | issue i =>
    cases i with
    | failure f =>
      show Halt.issue (.failure (annotate s f)) = _
      rw [hsame f (hl _ f rfl rfl)]
    | wrapped message f =>
      show Halt.issue (.wrapped message (annotate s f)) = _
      rw [hsame f (hl _ f rfl rfl)]
    | plain message => rfl
  | _ => rfl

/-- A step whose failures are reported for a symbol with a position ends with a located halt. -/
theorem located_of_mapIssue {s : Symbol} (hs : s.span.isNone = false) {x : Eval Unit}
    {m k : Machine} {h : Halt}
    (hx : Eval.mapIssue (Issue.map (annotate s)) x m = .error h k) : h.Located := by
  rw [Eval.mapIssue_eq] at hx
  cases hxm : x m with
  | ok a l =>
    rw [hxm] at hx
    exact absurd hx (by simp [Outcome.mapHalt])
  | error g l =>
    rw [hxm] at hx
    injection hx with hg _
    rw [← hg]
    exact located_map hs g

/-- **Failures have positions** if the symbols of the program have. -/
theorem steps_located {p : Program} (hp : ∀ s ∈ p, s.span.isNone = false) {m k : Machine}
    {h : Halt} (hsteps : steps t ctx p m = .error h k) : h.Located := by
  match p with
  | [] => exact absurd hsteps (by simp [steps, pure, EStateM.pure])
  | sym :: rest =>
    have hsym := hp sym List.mem_cons_self
    -- A sign of assignment without a target is the only front that takes no step.
    by_cases hfront : isAssign sym = true ∧ rest = []
    · obtain ⟨hsign, rfl⟩ := hfront
      rw [steps_of_assign hsign] at hsteps
      injection hsteps with hh _
      rw [← hh]
      exact located_map hsym (.issue (.failure { cause := .missingTarget }))
    · -- The induction is on the length, as an assignment uses two symbols.
      obtain ⟨x, used, rest', hused, heq, hfirst⟩ := steps_front t ctx sym rest hfront
      have hlen : rest'.length < (sym :: rest).length := by
        have := List.length_pos_of_ne_nil hused
        rw [heq, List.length_append]
        omega
      rw [heq, hfirst] at hsteps
      cases hx : Eval.mapIssue (Issue.map (annotate sym)) x m with
      | error g l =>
        rw [bind_of_error hx] at hsteps
        injection hsteps with hh _
        rw [← hh]
        exact located_of_mapIssue hsym hx
      | ok _ l =>
        rw [bind_of_ok hx] at hsteps
        refine steps_located (p := rest') (fun s hs => hp s ?_) hsteps
        rw [heq]
        exact List.mem_append_right _ hs
termination_by p.length
decreasing_by exact hlen

end Evaluator

end StackLang
