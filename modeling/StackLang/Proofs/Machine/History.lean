import StackLang.Proofs.Evaluation.Protection

namespace StackLang

/-!
# Histories of a machine

A client of a machine calls its operations in any order, also such that fail, but leaves only
frames that it has entered and not yet left.

* `Machine.Operation`, `Machine.perform` — the operations, and what they answer and change;
* `Machine.History` — the machines that come of such calls, with the frames that are open, each
  together with the machine in which it was entered;
* `Machine.Inside` — how a machine stands to those in which its open frames were entered: each of
  them holds what the next one protects;
* `Machine.History.inside` — every operation keeps it;
* `Machine.Orderly`, `Machine.history_protects` — what follows for the boundary, the frames and
  the protected values.
-/

/-- The boundary is lowered only if it is above the topmost value. -/
theorem Stack.boundary_protect (s : Stack) (boundary : Nat) :
    (s.protect boundary).boundary = min boundary s.size := by
  unfold protect
  split
  · rename_i h
    have hcovered : (s.visible.drop (s.height - (boundary - s.boundary))).length
        = min (boundary - s.boundary) s.height := by
      rw [List.length_drop]
      show s.height - _ = _
      omega
    show (s.visible.drop _).length + s.boundary = _
    rw [hcovered, size]
    omega
  · show s.boundary - (s.boundary - boundary) = _
    rw [size]
    omega

/-- Taking a value off leaves the protected values alone. -/
theorem Stack.hidden_of_pop {s : Stack} {r : Value × Stack} (h : s.pop = .ok r) :
    r.2.hidden = s.hidden := by
  unfold pop at h
  split at h <;> cases h
  rfl

/-- Taking values off leaves the protected values alone. -/
theorem Stack.hidden_of_take {s : Stack} {n : Nat} {r : List Value × Stack}
    (h : s.take n = .ok r) : r.2.hidden = s.hidden := by
  unfold take at h
  dsimp only at h
  split at h <;> cases h
  rfl

namespace Machine

/-! ### Operations -/

/-- A call on a machine. -/
inductive Operation where
  | push (vs : List Value)
  | pop
  | take (n : Nat)
  | peek (i : Int)
  | clear
  | enter (name : Bytes) (scope : Nat)
  | leave (f : Frame)

/-- What a call gives back. -/
inductive Answer where
  | done
  | value (v : Value)
  | values (vs : List Value)
  | frame (f : Frame)
  | failure (f : Failure)
  | fault (f : Fault)

/-- The answer to a call, and the machine afterwards. -/
def perform (m : Machine) : Operation → Answer × Machine
  | .push vs => (.done, { m with stack := m.stack.pushAll vs })
  | .pop =>
    match m.stack.pop with
    | .ok (v, s) => (.value v, { m with stack := s })
    | .error f => (.failure f, m)
  | .take n =>
    match m.stack.take n with
    | .ok (vs, s) => (.values vs, { m with stack := s })
    | .error f => (.failure f, m)
  | .peek i =>
    match m.stack.peek i with
    | .ok v => (.value v, m)
    | .error f => (.failure f, m)
  | .clear => (.done, { m with stack := m.stack.clear })
  | .enter name scope =>
    match m.enter name scope with
    | .ok (f, k) => (.frame f, k)
    | .error e => (.fault e, m)
  | .leave f =>
    match m.leave f with
    | .ok k => (.done, k)
    | .error e => (.fault e, m)

/-! ### Histories -/

/-- The frames that are open behind a call, the latest first, each with the machine in which it was
    entered. -/
def opensAfter (opens : List (Frame × Machine)) (m : Machine) (op : Operation) :
    List (Frame × Machine) :=
  match op, (m.perform op).1 with
  | .enter _ _, .frame f => (f, m) :: opens
  | .leave f, .done => opens.filter (·.1 ≠ f)
  | _, _ => opens

/-- The machines that come of calls on a machine, with the frames that are open.  Only an open
    frame may be left. -/
inductive History (start : Machine) : List (Frame × Machine) → Machine → Prop
  | start : History start [] start
  | call {opens : List (Frame × Machine)} {m : Machine} (h : History start opens m)
    (op : Operation) (hleave : ∀ f, op = .leave f → f ∈ opens.map Prod.fst) :
    History start (opensAfter opens m op) (m.perform op).2

/-! ### Machines inside open frames -/

/-- A machine inside open frames.  All values of the machine in which the current frame was entered
    are protected, its frames are the enclosing ones, and it was itself inside the others. -/
inductive Inside (base : Frame) : List (Frame × Machine) → Machine → Prop
  | outermost {m : Machine} (hframes : m.frames = [base]) (hbase : base.boundary = 0)
    (hhidden : m.stack.hidden = []) (hserial : base.serial < m.nextFrame) : Inside base [] m
  | frame {opens : List (Frame × Machine)} {e m : Machine} {f : Frame} (h : Inside base opens e)
    (hframes : m.frames = f :: e.frames)
    (hhidden : m.stack.hidden = e.stack.visible ++ e.stack.hidden)
    (hboundary : f.boundary = e.stack.size) (hserial : f.serial = e.nextFrame)
    (hnext : e.nextFrame < m.nextFrame) : Inside base ((f, e) :: opens) m

/-- What is below the boundary is all that another stack holds. -/
theorem boundary_of_hidden {s t : Stack} (h : t.hidden = s.visible ++ s.hidden) :
    t.boundary = s.size := by
  rw [t.boundary_eq, h, List.length_append, ← s.boundary_eq]
  rfl

namespace Inside

variable {base c f : Frame} {rest : List Frame} {opens : List (Frame × Machine)} {e m k : Machine}

/-- Only the frames, the protected values and the serial numbers matter. -/
theorem congr (h : Inside base opens m) (hframes : k.frames = m.frames)
    (hhidden : k.stack.hidden = m.stack.hidden) (hnext : m.nextFrame ≤ k.nextFrame) :
    Inside base opens k := by
  cases h with
  | outermost hf hb hh hs =>
    exact .outermost (hframes.trans hf) hb (hhidden.trans hh) (Nat.lt_of_lt_of_le hs hnext)
  | frame h hf hh hb hs hn =>
    exact .frame h (hframes.trans hf) (hhidden.trans hh) hb hs (Nat.lt_of_lt_of_le hn hnext)

/-- The frames of a machine inside open ones are these and the base frame. -/
theorem frames_eq (h : Inside base opens m) : m.frames = opens.map Prod.fst ++ [base] := by
  induction h with
  | outermost hf _ _ _ => exact hf
  | frame _ hf _ _ _ _ ih => rw [hf, ih, List.map_cons, List.cons_append]

/-- The boundary of a machine inside open frames is that of the current one. -/
theorem coherent (h : Inside base opens m) : m.Coherent := by
  cases h with
  | outermost hf hb hh _ => exact ⟨base, [], hf, by simp [hb, m.stack.boundary_eq, hh]⟩
  | frame _ hf hh hb _ _ => exact ⟨_, _, hf, by rw [hb, boundary_of_hidden hh]⟩

/-! ### Frames -/

/-- Frames have been given out with smaller serial numbers than the next one. -/
theorem serial_lt (h : Inside base opens m) : ∀ f ∈ m.frames, f.serial < m.nextFrame := by
  induction h with
  | outermost hf _ _ hs =>
    intro f hmem
    rw [hf, List.mem_singleton] at hmem
    rwa [hmem]
  | frame _ hf _ _ hs hn ih =>
    intro f hmem
    rw [hf] at hmem
    rcases List.mem_cons.mp hmem with rfl | hmem
    · rwa [hs]
    · exact Nat.lt_trans (ih f hmem) hn

/-- A frame has a greater serial number than those around it. -/
theorem pairwise_serial (h : Inside base opens m) :
    m.frames.Pairwise fun inner outer => outer.serial < inner.serial := by
  induction h with
  | outermost hf _ _ _ =>
    rw [hf]
    exact List.pairwise_singleton ..
  | frame h hf _ _ hs _ ih =>
    rw [hf]
    refine .cons (fun g hg => ?_) ih
    rw [hs]
    exact h.serial_lt g hg

/-- No frame protects more than the current one. -/
theorem boundary_le (h : Inside base opens m) :
    ∀ f ∈ m.frames, 0 ≤ f.boundary ∧ f.boundary ≤ m.stack.boundary := by
  induction h with
  | outermost hf hb _ _ =>
    intro f hmem
    rw [hf, List.mem_singleton] at hmem
    rw [hmem, hb]
    omega
  | @frame _ e m f _ hf hh hb _ _ ih =>
    rw [boundary_of_hidden hh]
    intro g hmem
    rw [hf] at hmem
    rcases List.mem_cons.mp hmem with rfl | hmem
    · rw [hb]
      omega
    · obtain ⟨hlow, hhigh⟩ := ih g hmem
      have hle : e.stack.boundary ≤ e.stack.size := Nat.le_add_left ..
      omega

/-- A frame protects at least what those around it protect. -/
theorem pairwise_boundary (h : Inside base opens m) :
    m.frames.Pairwise fun inner outer => outer.boundary ≤ inner.boundary := by
  induction h with
  | outermost hf _ _ _ =>
    rw [hf]
    exact List.pairwise_singleton ..
  | @frame _ e _ f h hf _ hb _ _ ih =>
    rw [hf]
    refine .cons (fun g hg => ?_) ih
    have hle := (h.boundary_le g hg).2
    have hsize : e.stack.boundary ≤ e.stack.size := Nat.le_add_left ..
    rw [hb]
    omega

/-- The boundary of an open frame is the number of values there were when it was entered. -/
theorem boundary_eq_size (h : Inside base opens m) :
    ∀ fe ∈ opens, fe.1.boundary = fe.2.stack.size := by
  induction h with
  | outermost _ _ _ _ => exact fun _ hmem => absurd hmem List.not_mem_nil
  | frame _ _ _ hb _ _ ih =>
    intro fe hmem
    rcases List.mem_cons.mp hmem with rfl | hmem
    · exact hb
    · exact ih fe hmem

/-- **Below the boundary of an open frame** are the values that were there when it was entered. -/
theorem physical_take (h : Inside base opens m) :
    ∀ fe ∈ opens, m.stack.physical.take fe.1.boundary.toNat = fe.2.stack.physical := by
  induction h with
  | outermost _ _ _ _ => exact fun _ hmem => absurd hmem List.not_mem_nil
  | @frame opens e m f h _ hh hb _ _ ih =>
    have hphysical : m.stack.physical = e.stack.physical ++ m.stack.visible.reverse := by
      rw [Stack.physical, Stack.physical, hh, List.reverse_append]
    have hlength : e.stack.physical.length = e.stack.size := by
      rw [Stack.physical, List.length_reverse, List.length_append, ← e.stack.boundary_eq]
      rfl
    intro fe hmem
    rcases List.mem_cons.mp hmem with rfl | hmem
    · rw [hb, Int.toNat_natCast, hphysical, ← hlength, List.take_left]
    · -- The enclosing frames protect a part of what this one protects.
      have hframe : fe.1 ∈ e.frames := by
        rw [h.frames_eq]
        exact List.mem_append_left _ (List.mem_map_of_mem hmem)
      have hle := (h.boundary_le fe.1 hframe).2
      have hsize : e.stack.boundary ≤ e.stack.size := Nat.le_add_left ..
      rw [← ih fe hmem, hphysical, List.take_append_of_le_length (by omega)]

/-! ### Entering and leaving -/

/-- **Entering** a frame never fails, and protects all values. -/
theorem enter_eq (h : Inside base opens m) (name : Bytes) (scope : Nat) :
    m.enter name scope = .ok (m.nextFrameOf name scope, m.called name scope) ∧
      Inside base ((m.nextFrameOf name scope, m) :: opens) (m.called name scope) :=
  ⟨Machine.enter_eq h.coherent name scope, .frame h rfl rfl rfl rfl (Nat.lt_succ_self _)⟩

/-- **Leaving the current frame** uncovers what was visible when it was entered, below what is
    visible now. -/
theorem leave_current (h : Inside base ((f, e) :: opens) m) :
    m.leave f = .ok { m with stack := e.stack.joined m.stack.visible, frames := e.frames } ∧
      Inside base opens { m with stack := e.stack.joined m.stack.visible, frames := e.frames } := by
  cases h with
  | frame h hf hh hb hs hn =>
    refine ⟨?_, h.congr rfl rfl (Nat.le_of_lt hn)⟩
    obtain ⟨c, rest, hc, hboundary⟩ := h.coherent
    have hnat : c.boundary.toNat = e.stack.boundary := by rw [hboundary, Int.toNat_natCast]
    unfold leave
    simp only [hf, if_true, hc, hnat, Stack.protect_joined hh]

/-- **Leaving another frame** is refused. -/
theorem leave_other (h : Inside base opens m) (hc : m.frames = c :: rest) (hf : f ∈ m.frames)
    (hne : f ≠ c) : m.leave f = .error .outOfOrder := by
  have hserial := h.pairwise_serial
  rw [hc] at hserial hf
  have hlt := (List.pairwise_cons.mp hserial).1 f ((List.mem_cons.mp hf).resolve_left hne)
  unfold leave
  simp only [hc, if_neg (show c.serial ≠ f.serial by omega)]

end Inside

/-! ### Calls inside open frames -/

/-- Every call keeps a machine inside its open frames, whether or not it fails. -/
theorem Inside.perform {base : Frame} {opens : List (Frame × Machine)} {m : Machine}
    (h : Inside base opens m) (op : Operation)
    (hleave : ∀ f, op = .leave f → f ∈ opens.map Prod.fst) :
    Inside base (opensAfter opens m op) (m.perform op).2 := by
  cases op with
  | push vs => exact h.congr rfl rfl (Nat.le_refl _)
  | pop =>
    show Inside base opens (m.perform .pop).2
    simp only [Machine.perform]
    cases hpop : m.stack.pop with
    | ok vs => exact h.congr rfl (Stack.hidden_of_pop hpop) (Nat.le_refl _)
    | error f => exact h
  | take n =>
    show Inside base opens (m.perform (.take n)).2
    simp only [Machine.perform]
    cases htake : m.stack.take n with
    | ok vs => exact h.congr rfl (Stack.hidden_of_take htake) (Nat.le_refl _)
    | error f => exact h
  | peek i =>
    show Inside base opens (m.perform (.peek i)).2
    simp only [Machine.perform]
    cases m.stack.peek i with
    | ok v => exact h
    | error f => exact h
  | clear => exact h.congr rfl rfl (Nat.le_refl _)
  | enter name scope =>
    obtain ⟨heq, hinside⟩ := h.enter_eq name scope
    simpa only [opensAfter, Machine.perform, heq] using hinside
  | leave f =>
    have hopen := hleave f rfl
    cases opens with
    | nil => exact absurd hopen List.not_mem_nil
    | cons fe outer =>
      have hframes := h.frames_eq
      by_cases hc : f = fe.1
      · -- No enclosing frame is the one that is left.
        have houter : (fe :: outer).filter (·.1 ≠ f) = outer := by
          have hserial := h.pairwise_serial
          rw [hframes] at hserial
          have hlt := (List.pairwise_cons.mp hserial).1
          rw [hc, List.filter_cons_of_neg (by simp), List.filter_eq_self]
          intro ge hmem
          have hinner := hlt ge.1 (List.mem_append_left _ (List.mem_map_of_mem hmem))
          exact decide_eq_true fun heq : ge.1 = fe.1 => Nat.lt_irrefl _ (heq ▸ hinner)
        obtain ⟨heq, hinside⟩ := Inside.leave_current (f := fe.1) (e := fe.2) h
        rw [← hc] at heq
        simpa only [opensAfter, Machine.perform, heq, houter] using hinside
      · have heq := h.leave_other hframes (by rw [hframes]; exact List.mem_append_left _ hopen) hc
        simpa only [opensAfter, Machine.perform, heq] using h

/-- **A machine that has just been made** stays inside the frames that are open. -/
theorem History.inside {scopes : Scopes Value} {root lists : Nat} {opens : List (Frame × Machine)}
    {m : Machine} (h : History (opening scopes root lists []) opens m) :
    Inside { baseFrame with scope := root } opens m := by
  induction h with
  | start => exact .outermost rfl rfl rfl Nat.zero_lt_one
  | call _ op hleave ih => exact ih.perform op hleave

/-! ### Protection -/

/-- What a client can rely on between calls, if `base` is the outermost frame. -/
structure Orderly (base : Frame) (opens : List (Frame × Machine)) (m : Machine) : Prop where
  /-- The frames are the open ones, inside the base frame. -/
  frames : m.frames = opens.map Prod.fst ++ [base]
  /-- The boundary of the stack is that of the current frame. -/
  boundary : ∃ c rest, m.frames = c :: rest ∧ c.boundary = m.stack.boundary
  /-- From the base frame to the current one, boundaries do not decrease. -/
  increasing : m.frames.Pairwise fun inner outer => outer.boundary ≤ inner.boundary
  boundary_le : m.stack.boundary ≤ m.stack.size
  /-- Below the boundary of an open frame are the values that were there when it was entered. -/
  protects : ∀ fe ∈ opens, fe.1.boundary = fe.2.stack.size ∧
    m.stack.physical.take fe.1.boundary.toNat = fe.2.stack.physical
  /-- A frame other than the current one cannot be left. -/
  refuses : ∀ c rest, m.frames = c :: rest → ∀ f ∈ m.frames, f ≠ c →
    m.perform (.leave f) = (.fault .outOfOrder, m)
  /-- Behind the current frame, its caller sees what it saw before, and above that what the
      frame left. -/
  leaves : ∀ f e outer, opens = (f, e) :: outer → ∃ k, m.perform (.leave f) = (.done, k) ∧
    k.frames = e.frames ∧ k.stack.boundary = e.stack.boundary ∧
    k.stack.values = e.stack.values ++ m.stack.values
  /-- A frame can always be entered, and protects all values. -/
  enters : ∀ name scope, ∃ f k, m.perform (.enter name scope) = (.frame f, k) ∧
    f.boundary = m.stack.size ∧ k.stack.boundary = m.stack.size ∧ k.stack.values = []
  /-- There are enough values for the boundary of every frame. -/
  unclamped : ∀ f ∈ m.frames, (m.stack.protect f.boundary.toNat).boundary = f.boundary

/-- What holds inside open frames is all that a client relies on. -/
theorem Inside.orderly {base : Frame} {opens : List (Frame × Machine)} {m : Machine}
    (h : Inside base opens m) : Orderly base opens m where
  frames := h.frames_eq
  boundary := h.coherent
  increasing := h.pairwise_boundary
  boundary_le := Nat.le_add_left ..
  protects fe hmem := ⟨h.boundary_eq_size fe hmem, h.physical_take fe hmem⟩
  refuses c rest hc f hf hne := by simp only [Machine.perform, h.leave_other hc hf hne]
  leaves f e outer hopens := by
    subst hopens
    obtain ⟨heq, _⟩ := h.leave_current
    have hleave : m.perform (.leave f) =
        (.done, { m with stack := e.stack.joined m.stack.visible, frames := e.frames }) := by
      simp only [Machine.perform, heq]
    exact ⟨_, hleave, rfl, rfl, List.reverse_append⟩
  enters name scope := by
    obtain ⟨heq, _⟩ := h.enter_eq name scope
    have henter : m.perform (.enter name scope) =
        (.frame (m.nextFrameOf name scope), m.called name scope) := by
      simp only [Machine.perform, heq]
    exact ⟨_, _, henter, rfl, rfl, rfl⟩
  unclamped f hf := by
    obtain ⟨hlow, hhigh⟩ := h.boundary_le f hf
    have hsize : m.stack.boundary ≤ m.stack.size := Nat.le_add_left ..
    rw [Stack.boundary_protect]
    omega

/-- **Protection over a whole history.** Whatever is called on a machine that has just been made,
    also with failures in between: its boundary is that of the current frame, each open frame
    protects what was there when it was entered, frames are left in order only, and no boundary
    is ever above the topmost value or below that of an enclosing frame. -/
theorem history_protects {scopes : Scopes Value} {root lists : Nat}
    {opens : List (Frame × Machine)} {m : Machine}
    (h : History (opening scopes root lists []) opens m) :
    Orderly { baseFrame with scope := root } opens m :=
  h.inside.orderly

/-! ### A frame inside another -/

/-- A machine on which a value has been pushed, a frame has been entered, and no value can be
    popped. -/
def guarding : Machine :=
  let pushed := ((opening (.root .empty) globals 0 []).perform (.push [.int 1])).2
  let entered := (pushed.perform (.enter (utf8 "invoke") globals)).2
  (entered.perform .pop).2

/-- The value guarded by a frame is back behind it, and the base frame cannot be left. -/
theorem history_protects_guarding :
    guarding.perform (.leave baseFrame) = (.fault .outOfOrder, guarding) ∧
      ∃ f k, guarding.perform (.leave f) = (.done, k) ∧ k.stack.values = [.int 1] := by
  have hhistory : History (opening (.root .empty) globals 0 [])
      [(⟨utf8 "invoke", globals, 1, 1⟩,
        ((opening (.root .empty) globals 0 []).perform (.push [.int 1])).2)] guarding :=
    .call (.call (.call .start (.push [.int 1]) nofun) (.enter (utf8 "invoke") globals) nofun)
      .pop nofun
  have horderly := history_protects hhistory
  refine ⟨horderly.refuses _ _ rfl _ (by decide) (by decide), ?_⟩
  obtain ⟨k, hleave, _, _, hvalues⟩ := horderly.leaves _ _ _ rfl
  exact ⟨_, k, hleave, hvalues⟩

end Machine

end StackLang
