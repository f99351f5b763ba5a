import StackLang.Proofs.Evaluation.Origins

namespace StackLang

/-!
# Positions inside evaluated strings

Where the evaluation of a string fails, the position of the failure moves into its message, as one
inside the string.  Positions do not tell which text they are positions of, so that those of blocks
of other texts move there as well.

* `Program.Place` — a position of a text, and `Program.place_of_has`, `Program.place_of_error` —
  those of the symbols and of the failures of its program are;
* `Value.spans`, `Machine.HoldsAt` — the positions inside the blocks of a value, and of what a
  machine holds;
* `Evaluator.MayFailAt`, `Evaluator.string_placed` — a string fails at a position of its own, at one
  inside a block that was there before, or at one inside a block of another string;
* `Evaluator.relocated_positions` — and this is the position that its message names.
-/

/-! ### Positions of a text -/

/-- A token that is pending is one of the tokens. -/
theorem Token.mem_of_mem_pending {ts : List Token} {o : Token} (h : o ∈ pending ts) : o ∈ ts := by
  induction ts using List.reverseRecOn generalizing o with
  | nil => exact h
  | append_singleton ts t ih =>
    rw [pending_concat] at h
    unfold nest at h
    refine List.mem_append.mpr ?_
    split at h
    · split at h
      · -- The bracket is the innermost open one.
        rcases List.mem_cons.mp h with rfl | h
        · exact Or.inr List.mem_cons_self
        · exact Or.inl (ih h)
      · exact Or.inl (ih (List.mem_of_mem_tail h))
    · exact Or.inl (ih h)

/-- What is wrong with a sequence of tokens is reported at the token at fault. -/
theorem Token.Fault.span_eq {before : List Token} {t : Token} {f : Failure}
    (h : Fault before t f) : f.span = t.span ∧ f.trail = [] := by
  cases h with
  | literal h => cases h <;> exact ⟨rfl, rfl⟩
  | unexpected _ _ _ => exact ⟨rfl, rfl⟩
  | mismatched _ _ _ _ _ _ => exact ⟨rfl, rfl⟩

namespace Program

variable {text : Bytes} {p : Program} {s : Symbol} {f : Failure}

/-- A position of a text: a range inside the text that is not empty, where a token of the text
    stands or a symbol of its program. -/
structure Place (text : Bytes) (span : Span) : Prop where
  nonempty : span.start < span.stop
  inside : span.stop ≤ text.length
  stands : (∃ t ∈ Token.scan text, span = t.span) ∨
    ∃ p s, parse text = .ok p ∧ p.Has s ∧ span = s.span

/-- The position of a token is a position of the text. -/
theorem place_of_token {t : Token} (ht : t ∈ Token.scan text) : Place text t.span :=
  ⟨(Token.ordered_scan text).nonempty t ht, Token.stop_le_length ht, Or.inl ⟨t, ht, rfl⟩⟩

/-- The position of a symbol, at any depth, is a position of the text. -/
theorem place_of_has (h : parse text = .ok p) (hs : p.Has s) : Place text s.span := by
  obtain ⟨hlt, hstop⟩ := extent_of_has h hs
  exact ⟨hlt, hstop, Or.inr ⟨p, s, h, hs, rfl⟩⟩

/-- A text that is no program fails at one of its tokens, or at no position where it is not made of
    tokens. -/
theorem place_of_error (h : parse text = .error f) :
    f.trail = [] ∧ ((f.span.isNone = true ∧ ∃ region, f.cause = .illegalInput region) ∨
      Place text f.span) := by
  rcases parse_outcome text with ⟨q, hq, -⟩ | ⟨pos, g, hg, hleft, -⟩
  · exact absurd (hq.symm.trans h) (by simp)
  · obtain rfl := Except.error.inj (hg.symm.trans h)
    cases hleft with
    -- An open group is reported at its bracket, which is a token.
    | unclosed hpending _ =>
      have hmem := Token.mem_of_mem_pending (hpending ▸ List.mem_cons_self)
      exact ⟨rfl, Or.inr (place_of_token hmem)⟩
    | piece hscan hfault =>
      cases hfault with
      -- Only what cannot be scanned is reported without a position.
      | unscannable _ => exact ⟨rfl, Or.inl ⟨rfl, _, rfl⟩⟩
      | @token t _ hp hfault =>
        have hmem : t ∈ Token.scan text :=
          List.mem_filterMap.mpr ⟨_, by rw [hscan]; simp, hp⟩
        obtain ⟨hspan, htrail⟩ := hfault.span_eq
        refine ⟨htrail, Or.inr ?_⟩
        rw [hspan]
        exact place_of_token hmem

end Program

/-! ### Positions inside values -/

mutual

/-- The positions of the symbols inside the blocks of a value. -/
def Value.spans : Value → List Span
  | .list _ vs => Value.spansAll vs
  | .tuple vs => Value.spansAll vs
  | .block p => Symbol.spansAll p
  | .bool _ | .int _ | .float _ | .str _ => []

/-- The positions inside the blocks of some values. -/
def Value.spansAll : List Value → List Span
  | [] => []
  | v :: vs => v.spans ++ Value.spansAll vs

/-- The positions of a symbol and of all symbols in it. -/
def Symbol.spans : Symbol → List Span
  | .literal v span => span :: v.spans
  | .name _ span => [span]
  | .operator _ span => [span]
  | .group _ p span => span :: Symbol.spansAll p
  | .blank span => [span]

/-- The positions of all symbols of a program. -/
def Symbol.spansAll : List Symbol → List Span
  | [] => []
  | s :: p => s.spans ++ Symbol.spansAll p

end

section Placed

variable {S : Span → Prop}

mutual

/-- A value is placed where the positions inside it are. -/
theorem Value.placed_of_spans : ∀ v : Value, (∀ x ∈ v.spans, S x) → v.Placed S
  | .bool b, _ => .bool b
  | .int n, _ => .int n
  | .float x, _ => .float x
  | .str s, _ => .str s
  | .list _ vs, h => .list (Value.placed_of_spansAll vs h)
  | .tuple vs, h => .tuple (Value.placed_of_spansAll vs h)
  | .block p, h => .block (Symbol.placed_of_spansAll p h)

/-- Values are placed where their symbols stand, value by value. -/
theorem Value.placed_of_spansAll : ∀ vs : List Value, (∀ x ∈ Value.spansAll vs, S x) →
    ∀ v ∈ vs, v.Placed S
  | [], _ => fun _ hv => absurd hv List.not_mem_nil
  | v :: vs, h => by
    obtain ⟨hfirst, hrest⟩ := List.forall_mem_append.mp h
    exact List.forall_mem_cons.mpr
      ⟨Value.placed_of_spans v hfirst, Value.placed_of_spansAll vs hrest⟩

/-- A symbol is placed where it and the symbols in it stand. -/
theorem Symbol.placed_of_spans : ∀ s : Symbol, (∀ x ∈ s.spans, S x) → s.Placed S S
  | .literal v _, h => by
    obtain ⟨hfirst, hrest⟩ := List.forall_mem_cons.mp h
    exact .literal hfirst (Value.placed_of_spans v hrest)
  | .name _ _, h => .name (h _ List.mem_cons_self)
  | .operator _ _, h => .operator (h _ List.mem_cons_self)
  | .group _ p _, h => by
    obtain ⟨hfirst, hrest⟩ := List.forall_mem_cons.mp h
    exact .group hfirst (Symbol.placed_of_spansAll p hrest)
  | .blank _, h => .blank (h _ List.mem_cons_self)

theorem Symbol.placed_of_spansAll : ∀ p : List Symbol, (∀ x ∈ Symbol.spansAll p, S x) →
    ∀ s ∈ p, s.Placed S S
  | [], _ => fun _ hs => absurd hs List.not_mem_nil
  | s :: p, h => by
    obtain ⟨hfirst, hrest⟩ := List.forall_mem_append.mp h
    exact List.forall_mem_cons.mpr
      ⟨Symbol.placed_of_spans s hfirst, Symbol.placed_of_spansAll p hrest⟩

end

end Placed

/-- A position inside a block of a value that a machine holds, on the stack or bound to a name. -/
def Machine.HoldsAt (m : Machine) (span : Span) : Prop :=
  ∃ v : Value, span ∈ v.spans ∧ (v ∈ m.stack.visible ∨ v ∈ m.stack.hidden ∨
    ∃ id sc name, m.scopes.get? id = some sc ∧ sc.table.get? name = some v)

/-- What a machine holds is placed where the positions inside it are. -/
theorem Machine.holds_placed {m : Machine} {S : Span → Prop} (h : ∀ x, m.HoldsAt x → S x) :
    (Invariant.placed S S fun _ => id).Holds m where
  stack := fun v hv => Value.placed_of_spans v fun x hx =>
    h x ⟨v, hx, hv.imp_right Or.inl⟩
  bound := fun id sc hsc name v hv => Value.placed_of_spans v fun x hx =>
    h x ⟨v, hx, Or.inr (Or.inr ⟨id, sc, name, hsc, hv⟩)⟩

/-! ### Evaluated strings -/

namespace Failure

variable {f : Failure}

/-- A failure without a position has none to be moved. -/
theorem relocated_of_none (h : f.span.isNone = true) : f.relocated = f := if_pos h

/-- The position of a failure moves to the end of its trail. -/
theorem trail_relocated (h : f.span.isNone = false) : f.relocated.trail = f.trail ++ [f.span] := by
  rw [relocated, h]
  rfl

end Failure

namespace Evaluator

variable {maxDepth rounds levels : Nat} {p : Program} {m k : Machine} {text : Bytes} {f : Failure}
  {below : List Value}

/-- Where the program of a string may fail: at a position of the string, at one inside a block that
    is there before, or at one inside a block of another string that is evaluated meanwhile. -/
def MayFailAt (ev : Evaluator) (levels : Nat) (text : Bytes) (m : Machine) (span : Span) : Prop :=
  Program.Place text span ∨ m.HoldsAt span ∨
    ∃ p other q s, Program.parse text = .ok p ∧ other ≠ text ∧ ev.ComesTo levels p m other ∧
      Program.parse other = .ok q ∧ q.HasInBlock s ∧ span = s.span

/-- A parser that refuses all strings that a program does not come to makes blocks that stand where
    the program may fail. -/
theorem parsesPlaced_comesTo (hparse : Program.parse text = .ok p) :
    let ev := Evaluator.builtin parser maxDepth rounds
    ParsesPlaced (ev.MayFailAt levels text m)
      (refusing (fun other => ¬ ev.ComesTo levels p m other) parser) := by
  intro ev other q hq
  by_cases hother : ev.ComesTo levels p m other
  · rw [refusing_of_not (not_not_intro hother)] at hq
    have hparseOther := parser_eq_ok.mp hq
    refine Program.placed_of_parse hparseOther (fun _ _ => trivial) fun s hs => ?_
    by_cases heq : other = text
    · subst heq
      exact Or.inl (Program.place_of_has hparseOther hs.has)
    · exact Or.inr (Or.inr ⟨p, other, q, s, hparse, heq, hother, hparseOther, hs, rfl⟩)
  · rw [refusing_of_refused hother] at hq
    exact absurd hq (by simp)

/-- **The program of a string** fails where it may, or because it is nested too deeply. -/
theorem string_placed (hm : m.Coherent) (hparse : Program.parse text = .ok p)
    (hrun : (Evaluator.builtin parser maxDepth rounds).run levels p m
      = .error (.issue (.failure f)) k) :
    f = { cause := .tooDeep maxDepth } ∨
      f.span.isNone = false ∧
        (Evaluator.builtin parser maxDepth rounds).MayFailAt levels text m f.span := by
  cases levels with
  | zero => exact absurd hrun (by simp [run, throw, throwThe, MonadExceptOf.throw, EStateM.throw])
  | succ levels =>
    by_cases hlow : m.depth < maxDepth
    · refine Or.inr ?_
      have hlocated := located_of_run
        (fun s hs => Program.span_of_has hparse (Program.has_of_mem hs)) hlow hrun
      have hnone : f.span.isNone = false := hlocated _ f rfl rfl
      -- Other strings may be refused, so that no other blocks come up.
      have hplaced := placed_of_run (parsesPlaced_comesTo hparse)
        (Program.placed_of_parse hparse (fun s hs => Or.inl (Program.place_of_has hparse hs))
          fun s hs => Or.inl (Program.place_of_has hparse hs.has))
        (Machine.holds_placed fun x hx => Or.inr (Or.inl hx))
        ((run_comesTo maxDepth rounds _ p hm).trans hrun)
      exact ⟨hnone, (hplaced _ f rfl rfl).resolve_left (by simp [hnone])⟩
    · rw [run_succ, if_pos (Nat.not_lt.mp hlow)] at hrun
      injection hrun with hhalt _
      exact Or.inl (Issue.failure.inj (Halt.issue.inj hhalt)).symm

/-- The sign of evaluation takes a string off the stack and evaluates it in place. -/
theorem operate_evalString (ctx : Context) (htop : m.stack.visible = .str text :: below) :
    operate .builtin ctx (utf8 "%") m = ctx.evalSource text (m.withVisible below) := by
  have hm : m = m.withVisible (.str text :: below) := by
    rw [← htop]
    rfl
  rw [hm]
  rfl

/-- What comes out of a string is a failure inside it that has been moved. -/
theorem exists_of_evalSource
    (hrun : ((Evaluator.builtin parser maxDepth rounds).context levels).evalSource text m
      = .error (.issue (.failure f)) k) :
    ∃ g : Failure, f = g.relocated ∧ (Program.parse text = .error g ∨
      ∃ p, Program.parse text = .ok p ∧
        (Evaluator.builtin parser maxDepth rounds).run levels p m
          = .error (.issue (.failure g)) k) := by
  -- Only a failure is moved out of a string; other halts are left alone, and there is no such one
  -- here.
  have hmap : ∀ h : Halt, h.map Failure.relocated = .issue (.failure f) →
      ∃ g, h = .issue (.failure g) ∧ f = g.relocated := by
    intro h hh
    cases h with
    | issue i =>
      cases i with
      | failure g => exact ⟨g, rfl, (Issue.failure.inj (Halt.issue.inj hh)).symm⟩
      | _ => exact absurd (Halt.issue.inj hh) (by simp [Issue.map])
    | _ => exact absurd hh (by simp [Halt.map])
  unfold Context.evalSource at hrun
  rw [Eval.mapIssue_eq] at hrun
  have hcontext : ((Evaluator.builtin parser maxDepth rounds).context levels).parse text
      = parser text := rfl
  rw [hcontext, parser] at hrun
  cases hparse : Program.parse text with
  | ok p =>
    rw [hparse] at hrun
    replace hrun : Outcome.mapHalt (Halt.map Failure.relocated)
        ((Evaluator.builtin parser maxDepth rounds).run levels p m)
          = .error (.issue (.failure f)) k := hrun
    cases hinner : (Evaluator.builtin parser maxDepth rounds).run levels p m with
    | ok _ r =>
      rw [hinner] at hrun
      exact absurd hrun (by simp [Outcome.mapHalt])
    | error h r =>
      rw [hinner] at hrun
      injection hrun with hhalt hr
      obtain ⟨g, rfl, hg⟩ := hmap h hhalt
      subst hr
      exact ⟨g, hg, Or.inr ⟨p, rfl, hinner⟩⟩
  | error g =>
    rw [hparse] at hrun
    injection hrun with hhalt _
    exact ⟨g, (Issue.failure.inj (Halt.issue.inj hhalt)).symm, Or.inl rfl⟩

/-- **Positions inside evaluated strings.**  Let a string be evaluated, at any moment of an
    evaluation, and fail.  Then no position is named in the message, as the string is nested too
    deeply or not made of tokens; or the last one that is named there is a range inside the string
    that is not empty, where a token or a symbol of it stands; or else it is a position inside a
    block, one that was there before or one of another string. -/
theorem relocated_positions (hm : m.Coherent) (htop : m.stack.visible = .str text :: below)
    (hrun : operate .builtin ((Evaluator.builtin parser maxDepth rounds).context levels)
      (utf8 "%") m = .error (.issue (.failure f)) k) :
    (f.trail = [] ∧ (f.cause = .tooDeep maxDepth ∨ ∃ region, f.cause = .illegalInput region)) ∨
      ∃ before span, f.trail = before ++ [span] ∧
        (Evaluator.builtin parser maxDepth rounds).MayFailAt levels text (m.withVisible below)
          span := by
  rw [operate_evalString _ htop] at hrun
  obtain ⟨g, rfl, hparse | ⟨p, hparse, hinner⟩⟩ := exists_of_evalSource hrun
  · obtain ⟨htrail, ⟨hnone, hregion⟩ | hplace⟩ := Program.place_of_error hparse
    · rw [Failure.relocated_of_none hnone]
      exact Or.inl ⟨htrail, Or.inr hregion⟩
    · have hnone := Span.isNone_of_lt hplace.nonempty
      exact Or.inr ⟨g.trail, g.span, Failure.trail_relocated hnone, Or.inl hplace⟩
  · rcases string_placed (m := m.withVisible below) hm hparse hinner with rfl | ⟨hnone, hplace⟩
    · exact Or.inl ⟨rfl, Or.inl rfl⟩
    · exact Or.inr ⟨g.trail, g.span, Failure.trail_relocated hnone, hplace⟩

/-- A name that is bound nowhere, in a string. -/
theorem relocated_positions_name :
    let m := start .empty [.str (utf8 "[ x ]")]
    let f : Failure := { cause := .unbound (utf8 "x"), trail := [⟨2, 3⟩] }
    let ev := Evaluator.builtin parser 5 5
    (m.Coherent ∧ m.stack.visible = [.str (utf8 "[ x ]")] ∧
        ∃ k, operate .builtin (ev.context 5) (utf8 "%") m = .error (.issue (.failure f)) k) ∧
      ((f.trail = [] ∧ (f.cause = .tooDeep 5 ∨ ∃ region, f.cause = .illegalInput region)) ∨
        ∃ before span, f.trail = before ++ [span] ∧
          ev.MayFailAt 5 (utf8 "[ x ]") (m.withVisible []) span) := by
  intro m f ev
  have hm : m.Coherent := Machine.coherent_opening ..
  have hrun : operate .builtin (ev.context 5) (utf8 "%") m = .error (.issue (.failure f))
      (Outcome.machine (operate .builtin (ev.context 5) (utf8 "%") m)) := rfl
  exact ⟨⟨hm, rfl, _, hrun⟩, relocated_positions hm rfl hrun⟩

/-- A block that the string evaluates was written in front of it.  The message names a position of
    the block as one inside the string, which is shorter. -/
theorem relocated_beyond_string :
    let failure : Failure :=
      { cause := .unbound (utf8 "x"), op := utf8 "%", span := ⟨10, 11⟩, trail := [⟨2, 3⟩] }
    standard.evaluateText (utf8 "\x7b x \x7d \"%\" %") .empty []
        = (.error (.issue (.failure failure)), .empty) ∧
      ¬ Program.Place (utf8 "%") ⟨2, 3⟩ :=
  ⟨rfl, fun h => absurd h.inside (by decide)⟩

end Evaluator

end StackLang
