import StackLang.Proofs.Evaluation.Calls

namespace StackLang

/-!
# Protection of the stack

A call sees and changes only what is above the boundary of the stack, and puts frames,
boundary and depth back however it ends.

* `Stack.physical` — all values of a stack, whether or not they are protected;
* `Machine.opening` — the machine at the start of an evaluation in any scope;
* `Evaluator.calls_protect` — every call made during an evaluation protects the stack below
  its boundary.
-/

namespace Stack

/-- All values, bottom first. -/
def physical (s : Stack) : List Value := (s.visible ++ s.hidden).reverse

/-- The values below the boundary are those that are not visible. -/
theorem take_physical (s : Stack) : s.physical.take s.boundary = s.hidden.reverse := by
  have hlen : s.boundary = s.hidden.reverse.length := by rw [List.length_reverse, s.boundary_eq]
  rw [physical, List.reverse_append, hlen, List.take_left]

end Stack

/-- The machine at the start of an evaluation: some scopes, the number of the scope in which
    names are bound, the number of lists made so far, and the initial values. -/
def Machine.opening (scopes : Scopes Value) (root lists : Nat) (initial : List Value) : Machine where
  scopes := scopes
  stack := Stack.empty.pushAll initial
  frames := [{ baseFrame with scope := root }]
  nextFrame := 1
  nextList := lists
  depth := 0

/-- An evaluation begins in a coherent machine. -/
theorem Machine.coherent_opening (scopes : Scopes Value) (root lists : Nat)
    (initial : List Value) : (opening scopes root lists initial).Coherent :=
  ⟨_, [], rfl, rfl⟩

namespace Evaluator

/-- An evaluation of a session starts on such a machine. -/
theorem start_eq_opening (memory : Memory) (initial : List Value) :
    start memory initial =
      .opening (.root memory.globals) Machine.globals memory.lists initial :=
  rfl

/-- The call with which an evaluation begins. -/
def opening (ev : Evaluator) (p : Program) (scopes : Scopes Value) (root lists : Nat)
    (initial : List Value) : Call :=
  ⟨ev.maxDepth + 1, p, .opening scopes root lists initial⟩

/-- **Protection of the stack.** However a call ends that is made during an evaluation, the
    frames, the boundary and the depth are those of its start, and so are all values below
    the boundary. -/
theorem calls_protect (parse : Parser) (maxDepth rounds : Nat) (p : Program)
    (scopes : Scopes Value) (root lists : Nat) (initial : List Value) {c : Call}
    (hc : (Evaluator.builtin parse maxDepth rounds).Calls
      ((Evaluator.builtin parse maxDepth rounds).opening p scopes root lists initial) c) :
    let final := c.final (Evaluator.builtin parse maxDepth rounds)
    let boundary := c.machine.stack.boundary
    final.frames = c.machine.frames ∧ final.stack.boundary = boundary ∧
      final.depth = c.machine.depth ∧ boundary ≤ final.stack.size ∧
      final.stack.physical.take boundary = c.machine.stack.physical.take boundary := by
  intro final boundary
  have hwithin : c.machine.Within final :=
    calls_within hc (Machine.coherent_opening ..) (Nat.zero_le _)
  have hboundary : final.stack.boundary = boundary := hwithin.boundary_eq
  refine ⟨hwithin.frames, hboundary, hwithin.depth, ?_, ?_⟩
  · rw [← hboundary]
    exact Nat.le_add_left ..
  · calc final.stack.physical.take boundary
        = final.stack.physical.take final.stack.boundary := by rw [hboundary]
      _ = final.stack.hidden.reverse := final.stack.take_physical
      _ = c.machine.stack.hidden.reverse := by rw [hwithin.hidden]
      _ = c.machine.stack.physical.take boundary := c.machine.stack.take_physical.symm

/-! ### A call inside a call -/

/-- The program `1 {2} !`. -/
def invocation : Program :=
  [.literal (.int 1) ⟨0, 1⟩, .literal (.block [.literal (.int 2) ⟨3, 4⟩]) ⟨2, 5⟩,
    .operator (utf8 "!") ⟨6, 7⟩]

/-- The call of the block in `1 {2} !`, above an initial value. -/
def invoked : Call where
  levels := 5
  program := [.literal (.int 2) ⟨3, 4⟩]
  machine :=
    let caller := Machine.opening (.root .empty) Machine.globals 0 [.bool true]
    ({ caller with depth := 1 }.callee (utf8 "invoke") (utf8 "invoke")).withVisible [.int 1]

open Classical in
/-- In `1 {2} !` the block is called. -/
theorem calls_invoked :
    (Evaluator.builtin parser 5 5).Calls
      ((Evaluator.builtin parser 5 5).opening invocation (.root .empty) Machine.globals 0
        [.bool true]) invoked := by
  have hhalt : ∀ inner : Program → Eval Unit,
      inner invoked.program invoked.machine = .error .exhausted invoked.machine →
      (Evaluator.builtin parser 5 5).runWith inner invocation
          (.opening (.root .empty) Machine.globals 0 [.bool true]) ≠
        (Evaluator.builtin parser 5 5).run 6 invocation
          (.opening (.root .empty) Machine.globals 0 [.bool true]) := by
    intro inner hinner h
    -- The block is the only program that is run, so that its end alone matters.
    have hend : (Evaluator.builtin parser 5 5).runWith inner invocation
          (.opening (.root .empty) Machine.globals 0 [.bool true]) =
        (Evaluator.builtin parser 5 5).runWith (fun _ _ => inner invoked.program invoked.machine)
          invocation (.opening (.root .empty) Machine.globals 0 [.bool true]) := rfl
    rw [hend, hinner] at h
    cases h
  refine .single ⟨rfl, fun p m => if p = invoked.program ∧ m = invoked.machine
    then (throw .exhausted : Eval Unit) m else (Evaluator.builtin parser 5 5).run 5 p m, ?_, ?_⟩
  · intro p m hne
    exact if_neg hne
  · exact hhalt _ (if_pos ⟨rfl, rfl⟩)

/-- The call of the block in `1 {2} !` leaves the initial value alone. -/
theorem calls_protect_invoked :
    (Evaluator.builtin parser 5 5).Calls
      ((Evaluator.builtin parser 5 5).opening invocation (.root .empty) Machine.globals 0
        [.bool true]) invoked ∧
      (invoked.final (Evaluator.builtin parser 5 5)).stack.physical.take 1 = [.bool true] :=
  ⟨calls_invoked, (calls_protect parser 5 5 invocation _ _ _ _ calls_invoked).2.2.2.2⟩

end Evaluator

end StackLang
