import StackLang.Session.Basic
import StackLang.Proofs.Evaluation.Continuation

namespace StackLang

/-!
# Split input

A session evaluates one text after the other on the stack and with the bindings that the text
before has left.  It makes no difference where its input is split into texts.

* `Session.initial` — the values on which a session evaluates its next input;
* `Session.evalAll` — texts one after the other, up to the first that fails;
* `Session.Alike` — sessions that hold the same values and bindings, up to positions;
* `Session.eval_newline` — two texts in one;
* `Session.evalAll_joined` — any number of texts in one;
* `Session.runFiles_eq_evalAll` — files are evaluated as the texts in them;
* `Session.split_evaluates` — splitting input does not change its meaning.
-/

open Bytes (ascii joined)

namespace Session

/-- The values on which a session evaluates its next input. -/
def initial (s : Session) : List Value := if s.autoclear then [] else s.stack

/-- Without clearing, an input is evaluated on the values left by the one before. -/
theorem initial_of_off {s : Session} (h : s.autoclear = false) : s.initial = s.stack := by
  simp [initial, h]

/-- Evaluates texts one after the other, up to the first that fails. -/
def evalAll (s : Session) : List Bytes → Option Halt × Session × Bytes
  | [] => (none, s, [])
  | source :: sources =>
    match s.eval source with
    | (none, s, out) =>
      let (h, s, more) := evalAll s sources
      (h, s, out ++ more)
    | failed => failed

/-- Sessions hold the same values and bindings, up to positions. -/
structure Alike (s t : Session) : Prop where
  stack : s.stack.map Value.unspanned = t.stack.map Value.unspanned
  memory : s.memory.unspanned = t.memory.unspanned

/-! ### Texts -/

variable {s u s₁ s₂ : Session} {out out' : Bytes}

/-- A session evaluates an input successfully as the evaluator does, and keeps what is left. -/
theorem eval_eq_none_iff {source : Bytes} : s.eval source = (none, s₁, out) ↔
    ∃ left memory, Evaluator.standard.evaluateText source s.memory s.initial = (.ok left, memory) ∧
      s₁ = { s with memory := memory, stack := left } ∧ out = [] := by
  have hinitial : (if s.autoclear then [] else s.stack) = s.initial := rfl
  simp only [eval, hinitial]
  cases Evaluator.standard.evaluateText source s.memory s.initial with
  | mk result memory =>
    cases result with
    | ok left => simp [eq_comm]
    | error h => simp

/-- **Two texts in one**: a session evaluates them as one after the other, up to positions, if it
    goes on with the values that the first one leaves. -/
theorem eval_newline {text rest : Bytes} (h : s.eval text = (none, s₁, out))
    (hs : s.autoclear = false) (h' : s₁.eval rest = (none, s₂, out'))
    (hmemory : u.memory = s.memory) (hinitial : u.initial = s.initial) :
    ∃ t, u.eval (text ++ ascii '\n' :: rest) = (none, t, []) ∧ t.Alike s₂ := by
  obtain ⟨left, memory, htext, rfl, -⟩ := eval_eq_none_iff.mp h
  obtain ⟨left', memory', hrest, rfl, -⟩ := eval_eq_none_iff.mp h'
  rw [initial_of_off (s := { s with memory := memory, stack := left }) hs] at hrest
  obtain ⟨last, final, hjoined, hstack, hglobals⟩ := Evaluator.evaluateText_newline htext hrest
  refine ⟨{ u with memory := final, stack := last }, ?_, ⟨hstack, hglobals⟩⟩
  rw [eval_eq_none_iff, hmemory, hinitial]
  exact ⟨last, final, hjoined, rfl, rfl⟩

/-- The empty text changes nothing. -/
theorem eval_nil (u : Session) : u.eval [] = (none, { u with stack := u.initial }, []) := by
  rw [eval_eq_none_iff]
  refine ⟨u.initial, u.memory, ?_, rfl, rfl⟩
  show (Evaluator.builtin Evaluator.parser _ _).evaluateText [] u.memory u.initial = _
  rw [Evaluator.evaluateText_of_parse (p := []) rfl, Evaluator.evaluate_eq_ok_iff]
  refine ⟨Evaluator.start u.memory u.initial, ?_, ?_, rfl⟩
  · rw [Evaluator.run_succ]
    rfl
  · simp [Evaluator.start, Stack.values, Stack.pushAll, Machine.start, Stack.empty]

/-- Texts are evaluated successfully if the first one is and then the others are. -/
theorem evalAll_cons_eq_none_iff {source : Bytes} {sources : List Bytes} :
    s.evalAll (source :: sources) = (none, s₂, out) ↔ ∃ s₁ out₁ out₂,
      s.eval source = (none, s₁, out₁) ∧ s₁.evalAll sources = (none, s₂, out₂) ∧
        out = out₁ ++ out₂ := by
  rw [evalAll]
  rcases s.eval source with ⟨_ | h, s₁, out₁⟩
  · simp only [Prod.mk.injEq, true_and]
    constructor
    · rintro ⟨hnone, rfl, rfl⟩
      refine ⟨s₁, out₁, _, ⟨rfl, rfl⟩, ?_, rfl⟩
      rw [← hnone]
    · rintro ⟨_, _, out₂, ⟨rfl, rfl⟩, hrest, rfl⟩
      simp [hrest]
  · simp

/-- **Any number of texts in one.**  Let a session evaluate texts one after the other, each on what
    the one before has left, and let them all go well.  Then so does the text that newlines join
    them to, and it leaves the same values and bindings, up to positions, in any session that
    evaluates it on the same values and with the same bindings. -/
theorem evalAll_joined {texts : List Bytes} (hs : s.autoclear = false)
    (h : s.evalAll texts = (none, s₂, out)) (hmemory : u.memory = s.memory)
    (hinitial : u.initial = s.initial) :
    ∃ t, u.eval (joined (utf8 "\n") texts) = (none, t, []) ∧ t.Alike s₂ := by
  induction texts generalizing s u out with
  | nil =>
    obtain ⟨-, rfl, -⟩ := h
    rw [initial_of_off hs] at hinitial
    exact ⟨_, eval_nil u, ⟨congrArg _ hinitial, congrArg _ hmemory⟩⟩
  | cons text texts ih =>
    obtain ⟨s₁, out₁, out₂, heval, hrest, -⟩ := evalAll_cons_eq_none_iff.mp h
    cases texts with
    | nil =>
      obtain ⟨-, rfl, -⟩ := hrest
      obtain ⟨left, memory, htext, rfl, -⟩ := eval_eq_none_iff.mp heval
      refine ⟨{ u with memory := memory, stack := left }, ?_, ⟨rfl, rfl⟩⟩
      rw [joined, List.intercalate_singleton, eval_eq_none_iff, hmemory, hinitial]
      exact ⟨left, memory, htext, rfl, rfl⟩
    | cons next texts =>
      -- All texts but the first are one text already.
      have hs₁ : s₁.autoclear = false := by
        obtain ⟨left, memory, -, rfl, -⟩ := eval_eq_none_iff.mp heval
        exact hs
      obtain ⟨t, hjoined, halike⟩ := ih hs₁ hrest rfl rfl
      obtain ⟨t', heval', halike'⟩ := eval_newline heval hs hjoined hmemory hinitial
      refine ⟨t', ?_, halike'.stack.trans halike.stack, halike'.memory.trans halike.memory⟩
      rw [joined, List.intercalate_cons_cons, List.append_assoc]
      exact heval'

/-! ### Files -/

/-- Files are evaluated as the texts in them. -/
theorem runFiles_eq_evalAll {m : Type → Type} [Monad m] [LawfulMonad m] {read : Reader m}
    {content : Bytes → Bytes} {paths : List Bytes}
    (hread : ∀ path ∈ paths, read path = pure (.ok (content path))) (s : Session) :
    runFiles read s paths
      = pure ((s.evalAll (paths.map content)).1.isNone, (s.evalAll (paths.map content)).2) := by
  induction paths generalizing s with
  | nil => rfl
  | cons path paths ih =>
    have hfile : runFile read s path
        = pure ((s.eval (content path)).1.isNone, (s.eval (content path)).2) := by
      rw [runFile, hread path List.mem_cons_self, pure_bind]
    rw [runFiles, hfile, pure_bind, List.map_cons, evalAll]
    rcases s.eval (content path) with ⟨_ | h, s₁, out⟩
    · simp only [Option.isNone_none, if_true]
      rw [ih fun q hq => hread q (List.mem_cons_of_mem _ hq), pure_bind]
    · simp

/-- **Splitting input does not change its meaning.**

    * Two programs, one behind the other, end like the second one on the values and in the scopes
      that the first one leaves, if it goes well.
    * If a session that keeps its stack evaluates texts one after the other, and all go well, it
      holds the same values and bindings, up to positions, as a session that evaluates the one text
      which newlines join them to.
    * A session evaluates files as it evaluates the texts in them. -/
theorem split_evaluates :
    (∀ (parse : Parser) (maxDepth rounds : Nat) (p q : Program) (scopes scopes' : Scopes Value)
        (root lists lists' : Nat) (initial left : List Value),
      (Evaluator.builtin parse maxDepth rounds).evaluateIn p scopes root lists initial
        = ⟨.ok left, scopes', lists'⟩ →
      (Evaluator.builtin parse maxDepth rounds).evaluateIn (p ++ q) scopes root lists initial
        = (Evaluator.builtin parse maxDepth rounds).evaluateIn q scopes' root lists' left) ∧
    (∀ (s u s' : Session) (texts : List Bytes) (out : Bytes), s.autoclear = false →
      s.evalAll texts = (none, s', out) → u.memory = s.memory → u.initial = s.initial →
      ∃ t, u.eval (joined (utf8 "\n") texts) = (none, t, []) ∧ t.Alike s') ∧
    ∀ (m : Type → Type) [Monad m] [LawfulMonad m] (read : Reader m) (content : Bytes → Bytes)
        (paths : List Bytes) (s : Session),
      (∀ path ∈ paths, read path = pure (.ok (content path))) →
      runFiles read s paths
        = pure ((s.evalAll (paths.map content)).1.isNone, (s.evalAll (paths.map content)).2) := by
  refine ⟨?_, ?_, ?_⟩
  · intro parse maxDepth rounds p q scopes scopes' root lists lists' initial left h
    exact Evaluator.evaluateIn_continued h q
  · intro s u s' texts out hs h hmemory hinitial
    exact evalAll_joined hs h hmemory hinitial
  · intro m _ _ read content paths s hread
    exact runFiles_eq_evalAll hread s

/-- Files with a comment, a string over two lines and a name at the seams between them. -/
def seams : List (Bytes × Bytes) :=
  [(utf8 "a", utf8 "1 // one"), (utf8 "b", utf8 "\x7b$\x7d : f 'a\nb'"), (utf8 "c", utf8 "f ")]

/-- The content of one of these files. -/
def seamText (path : Bytes) : Bytes := (seams.lookup path).getD []

/-- Files with a comment, a string and a name at their seams evaluate as one text. -/
theorem split_evaluates_seams :
    (let ev := Evaluator.builtin Evaluator.parser 5 5
      let plus : Program := [.operator (utf8 "+") ⟨8, 9⟩]
      ev.evaluateIn (Evaluator.invocation ++ plus) (.root .empty) Machine.globals 0 [.bool true]
        = ev.evaluateIn plus (.root .empty) Machine.globals 0 [.bool true, .int 1, .int 2]) ∧
    ∃ s', (new false).evalAll (seams.map Prod.snd) = (none, s', []) ∧ s'.stack.length = 4 ∧
      (∀ autoclear, ∃ t, (new autoclear).eval (joined (utf8 "\n") (seams.map Prod.snd))
        = (none, t, []) ∧ t.Alike s') ∧
      runFiles (m := Id) (fun path => .ok (seamText path)) (new false) (seams.map Prod.fst)
        = (true, s', []) := by
  refine ⟨?_, _, rfl, rfl, ?_, ?_⟩
  · exact split_evaluates.1 _ 5 5 Evaluator.invocation _ _ _ _ _ _ _ _ rfl
  · intro autoclear
    apply split_evaluates.2.1 (new false)
    · rfl
    · rfl
    · rfl
    · cases autoclear <;> rfl
  · exact split_evaluates.2.2 Id _ seamText (seams.map Prod.fst) (new false) fun _ _ => rfl

end Session

end StackLang
