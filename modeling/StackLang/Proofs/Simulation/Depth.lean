import StackLang.Proofs.Simulation.Callers

namespace StackLang

/-!
# Evaluations at different depths

Two calls of one program are compared that begin in the same machine, but for the depth of
nesting.  The first one may come to the limit of nesting where the second one goes on; nothing is
said about it then.

* `Machine.atDepth` — the machine at another depth;
* `Depths`, `Depths.Same` — where the first call begins, and the machines met during the calls;
* `Halt.Ends` — how the calls may end: with halts that both share and that are no faults, or with
  the first call lost;
* `Simulation.depths` — all steps of evaluations keep the two calls together;
* `Evaluator.run_headroom` — and so do whole programs, if the second call is at least as far from
  its limit as the first one from its own, and may take at least as many rounds in loops;
* `Evaluator.run_faultless` — no evaluation ends with a fault.
-/

/-! ### Halts -/

/-- A halt that is no fault of the host. -/
def Halt.Fine (h : Halt) : Prop := ∀ f, h ≠ .fault f

/-- A halt because evaluations are nested too deeply. -/
def Halt.Deep (h : Halt) : Prop :=
  ∃ i f, h = .issue i ∧ i.failure? = some f ∧ f.kind = .recursionError

namespace Halt

theorem fine_exhausted : Fine .exhausted := nofun

theorem fine_issue (i : Issue) : Fine (.issue i) := nofun

/-- Changing the failure in a halt makes no fault of it. -/
theorem Fine.map {h : Halt} (hf : h.Fine) (g : Failure → Failure) : (h.map g).Fine := by
  intro f
  cases h with
  | issue i => simp [Halt.map]
  | fault e => exact absurd rfl (hf e)
  | exhausted => simp [Halt.map]

/-- Reporting a failure for a symbol, or moving it out of a string, does not change its kind. -/
theorem Deep.map {h : Halt} (hd : h.Deep) {g : Failure → Failure}
    (hg : ∀ f, (g f).kind = f.kind) : (h.map g).Deep := by
  obtain ⟨i, f, rfl, hf, hk⟩ := hd
  refine ⟨i.map g, g f, rfl, ?_, (hg f).trans hk⟩
  cases i with
  | plain _ => exact absurd hf (by simp [Issue.failure?])
  | _ =>
    obtain rfl := Option.some.inj hf
    rfl

/-- A call refused because of its depth is nested too deeply. -/
theorem deep_tooDeep (limit : Nat) : (Halt.ofCause (.tooDeep limit) []).Deep :=
  ⟨_, _, rfl, rfl, rfl⟩

end Halt

/-- Reporting a failure for a symbol keeps its kind. -/
theorem Evaluator.annotate_kind (s : Symbol) (f : Failure) : (annotate s f).kind = f.kind := by
  unfold annotate
  split
  · split
    · unfold Failure.withOp
      split <;> rfl
    · rfl
  · rfl

/-- Moving a failure out of a string keeps its kind. -/
theorem Failure.relocated_kind (f : Failure) : f.relocated.kind = f.kind := by
  unfold relocated
  split <;> rfl

/-- How two calls that are compared may end: the halts that both may share, and those of the first
    call after which nothing is compared.  A fault may come up when the frames are left behind a
    lost halt, so that faults are among them. -/
structure Halt.Ends where
  shared : Halt → Prop
  lost : Halt → Prop
  ofCause : ∀ {c : Cause} op, c.Classed → shared (.ofCause c op)
  shared_map : ∀ {h : Halt} {g : Failure → Failure}, (∀ f, (g f).kind = f.kind) → shared h →
    shared (h.map g)
  lost_map : ∀ {h : Halt} {g : Failure → Failure}, (∀ f, (g f).kind = f.kind) → lost h →
    lost (h.map g)
  fault : ∀ {h}, lost h → ∀ f, lost (.fault f)

namespace Halt.Ends

/-- Both calls end in the same way, and not with a fault. -/
def same : Ends where
  shared := Fine
  lost _ := False
  ofCause := fun _ _ _ h => Halt.noConfusion h
  shared_map := fun _ h => h.map _
  lost_map := fun _ h => h
  fault := fun h => h.elim

/-- Both calls end in the same way, and in no loop. -/
def settled : Ends where
  shared h := ∃ i, h = .issue i
  lost _ := False
  ofCause := fun _ _ => ⟨_, rfl⟩
  shared_map := by
    rintro _ g - ⟨i, rfl⟩
    exact ⟨i.map g, rfl⟩
  lost_map := fun _ h => h
  fault := fun h => h.elim

/-- The first call may come to the limit of nesting. -/
def deep : Ends where
  shared := Fine
  lost h := h.Deep ∨ ∃ f, h = .fault f
  ofCause := same.ofCause
  shared_map := same.shared_map
  lost_map := by
    rintro h g hg (hd | ⟨f, rfl⟩)
    · exact Or.inl (hd.map hg)
    · exact Or.inr ⟨f, rfl⟩
  fault := fun _ f => Or.inr ⟨f, rfl⟩

/-- The first call may come to the limit of nesting, or run out of rounds in a loop. -/
def unfinished : Ends where
  shared := Fine
  lost h := h.Deep ∨ h = .exhausted ∨ ∃ f, h = .fault f
  ofCause := same.ofCause
  shared_map := same.shared_map
  lost_map := by
    rintro h g hg (hd | rfl | ⟨f, rfl⟩)
    · exact Or.inl (hd.map hg)
    · exact Or.inr (Or.inl rfl)
    · exact Or.inr (Or.inr ⟨f, rfl⟩)
  fault := fun _ f => Or.inr (Or.inr ⟨f, rfl⟩)

/-- The first call may run out of rounds in a loop. -/
def looping : Ends where
  shared := Fine
  lost h := h = .exhausted ∨ ∃ f, h = .fault f
  ofCause := same.ofCause
  shared_map := same.shared_map
  lost_map := by
    rintro h g - (rfl | ⟨f, rfl⟩)
    · exact Or.inl rfl
    · exact Or.inr ⟨f, rfl⟩
  fault := fun _ f => Or.inr ⟨f, rfl⟩

/-- The numbers of rounds that loops may take in both calls. -/
def Rounds (ends : Ends) (n k : Nat) : Prop :=
  ends.shared .exhausted → n = k ∨ ends.lost .exhausted ∧ n ≤ k

/-- Both calls may end with what is wrong with a source text. -/
def Parses (ends : Ends) (parse : Parser) : Prop :=
  ∀ source i, parse source = .error i → ends.shared (.issue i)

/-- Both calls parse source text alike, and may end with what is wrong with it, or the first one is
    lost there. -/
def ParsesAlike (ends : Ends) (parse parse' : Parser) : Prop :=
  ∀ source,
    (parse' source = parse source ∧ ∀ i, parse source = .error i → ends.shared (.issue i)) ∨
    (∃ i, parse source = .error i ∧ ends.lost (.issue i))

/-- A parser whose failures both calls may share parses alike with itself. -/
theorem ParsesAlike.refl {ends : Ends} {parse : Parser} (h : ends.Parses parse) :
    ends.ParsesAlike parse parse := fun source => Or.inl ⟨rfl, h source⟩

end Halt.Ends

/-- The very same halts correspond, and they are such as both calls may share. -/
def Halts.guarded (ends : Halt.Ends) : Halts where
  halt h g := h = g ∧ ends.shared h
  lost := ends.lost
  ofCause := fun op hc => ⟨rfl, ends.ofCause op hc⟩
  annotate := by
    rintro h _ s ⟨rfl, hs⟩
    exact ⟨rfl, ends.shared_map (Evaluator.annotate_kind s) hs⟩
  relocated := by
    rintro h _ ⟨rfl, hs⟩
    exact ⟨rfl, ends.shared_map Failure.relocated_kind hs⟩
  lost_annotate := fun s => ends.lost_map (Evaluator.annotate_kind s)
  lost_relocated := ends.lost_map Failure.relocated_kind

/-! ### Machines -/

/-- The machine at another depth. -/
def Machine.atDepth (m : Machine) (depth : Nat) : Machine := { m with depth := depth }

/-- The machine in which the first of two calls begins, at some depth. -/
structure Depths (depth : Nat) where
  first : Machine
  coherent : first.Coherent
  depth_eq : first.depth = depth

namespace Depths

variable {d e : Nat} {ends : Halt.Ends} {w : Depths d} {m n : Machine}

/-- Machines that are met at the same time during the two calls, the second one of which is at
    the depth `e`. -/
structure Same (e : Nat) (w : Depths d) (m n : Machine) : Prop where
  within : w.first.Within m
  second : n = m.atDepth e

/-- The machines met during the two calls are coherent, as the first one was. -/
theorem Same.coherent (h : w.Same e m n) : m.Coherent := h.within.coherent w.coherent

theorem Same.depth_eq (h : w.Same e m n) : m.depth = d := h.within.depth.trans w.depth_eq

/-- The comparison of calls at two depths. -/
abbrev comparison (ends : Halt.Ends) (d e : Nat) : Comparison :=
  .same (Depths d) (.guarded ends) (Same e)

variable {α β : Type} {A : α → β → Prop}

/-- Nothing is compared any more where the first call is lost. -/
theorem alike_of_lost {h : Halt} (hl : ends.lost h) (k : Machine) (q : Outcome β) :
    (comparison ends d e).Alike A w (.error h k) q := by
  cases q with
  | ok b l => exact hl
  | error g l => exact Or.inl hl

/-- A halt that both calls may share corresponds to itself. -/
theorem alike_of_shared {h : Halt} (hs : ends.shared h) (hm : w.Same e m n) :
    (comparison ends d e).Alike A w (.error h m) (.error h n) :=
  Or.inr ⟨⟨rfl, hs⟩, hm⟩

/-- Calls that end alike, and the first of which is not lost, end in the same machines. -/
theorem same_of_alike {r : Outcome α} {q : Outcome β} (h : (comparison ends d e).Alike A w r q)
    (hr : ∀ g k, r = .error g k → ¬ ends.lost g) :
    w.Same e (Outcome.machine r) (Outcome.machine q) := by
  cases r with
  | ok a m =>
    cases q with
    | ok b n => exact h.2
    | error g n => exact h.elim
  | error g m =>
    cases q with
    | ok b n => exact absurd h (hr g m rfl)
    | error f n => exact (h.resolve_left (hr g m rfl)).2

/-- Calls that end alike, and the first of which is not lost, have the same outcome, but for the
    depth. -/
theorem eq_of_alike {r q : Outcome α} (h : (comparison ends d e).Alike Eq w r q)
    (hr : ∀ g k, r = .error g k → ¬ ends.lost g) :
    q = Outcome.onMachine (fun m => m.atDepth e) r := by
  have hmachine := (same_of_alike h hr).second
  cases r with
  | ok a m =>
    cases q with
    | ok b n => rw [show n = m.atDepth e from hmachine, h.1, Outcome.onMachine]
    | error g n => exact h.elim
  | error g m =>
    cases q with
    | ok b n => exact absurd h (hr g m rfl)
    | error f n =>
      obtain ⟨⟨rfl, -⟩, -⟩ := h.resolve_left (hr g m rfl)
      rw [show n = m.atDepth e from hmachine, Outcome.onMachine]

/-- Calls at one depth that end alike, and the first of which is not lost, have the very same
    outcome. -/
theorem eq_of_alike_same {r q : Outcome α} (h : (comparison ends d d).Alike Eq w r q)
    (hr : ∀ g k, r = .error g k → ¬ ends.lost g) : q = r := by
  have hdepth := (same_of_alike h hr).depth_eq
  rw [eq_of_alike h hr, Outcome.onMachine_congr (g := fun m => m), Outcome.onMachine_id]
  show (Outcome.machine r).atDepth d = Outcome.machine r
  rw [← hdepth]
  rfl

/-- Outcomes stay alike when their machines are changed and stay the same. -/
theorem alike_onMachine {d' e' : Nat} {c : Depths d'} {r : Outcome α} {q : Outcome β}
    {f g : Machine → Machine} (h : (comparison ends d' e').Alike A c r q)
    (hfg : ∀ m n, c.Same e' m n → w.Same e (f m) (g n)) :
    (comparison ends d e).Alike A w (Outcome.onMachine f r) (Outcome.onMachine g q) :=
  h.onMachine (fun _ hl => hl) (fun _ _ hk => hk) hfg

/-- A step that keeps a call together with itself ends with a halt that may be shared, if none is
    ever lost. -/
theorem shared_of_respects (ends : Halt.Ends) {x : Eval α} {m : Machine} (hm : m.Coherent)
    (hlost : ∀ h, ¬ ends.lost h)
    (hx : ∀ w, (comparison ends m.depth m.depth).Respects Eq w x x) {h : Halt} {k : Machine}
    (herror : x m = .error h k) : ends.shared h := by
  have halike := hx ⟨m, hm, rfl⟩ m m ⟨.refl m, rfl⟩
  rw [herror] at halike
  exact (halike.resolve_left (hlost h)).1.2

/-! ### Elementary steps -/

/-- Names are looked up in the same scopes at every depth. -/
theorem lookup_respects (w : Depths d) (name : Bytes) :
    (comparison ends d e).Respects Eq w (Eval.lookup name) (Eval.lookup name) := by
  rintro m n ⟨hm, rfl⟩
  have hcoherent := hm.coherent w.coherent
  have hsecond : (m.atDepth e).Coherent := hcoherent
  rw [Eval.lookup_eq hcoherent, Eval.lookup_eq hsecond]
  show (comparison ends d e).Alike Eq w (Eval.ofExcept (m.lookup m.active name) m)
    (Eval.ofExcept (m.lookup m.active name) (m.atDepth e))
  unfold Machine.lookup
  split
  · exact ⟨rfl, hm, rfl⟩
  · exact alike_of_shared (ends.ofCause [] nofun) ⟨hm, rfl⟩

/-- Names are bound in the same scopes at every depth. -/
theorem bind_respects (w : Depths d) (name : Bytes) (v : Value) :
    (comparison ends d e).Respects Eq w (Eval.bind name v) (Eval.bind name v) := by
  rintro m n ⟨hm, rfl⟩
  have hcoherent := hm.coherent w.coherent
  have hsecond : (m.atDepth e).Coherent := hcoherent
  rw [Eval.bind_eq hcoherent, Eval.bind_eq hsecond]
  exact ⟨rfl, hm.bind name v, rfl⟩

/-- Between entering and leaving a frame, the calls stay together. -/
theorem ensuring_alike {x : Eval α} {y : Eval β} (hm : m.Coherent) {name : Bytes}
    {scope : Nat} (keep : Nat) (c : Depths d) (hc : c.first = m.called name scope)
    (hx : (comparison ends d e).Alike A c (x (m.called name scope))
      (y ((m.called name scope).atDepth e)))
    (hback : ∀ r, (m.called name scope).Within r →
      w.first.Within { m.resumed r with scopes := r.scopes.truncate keep }) :
    (comparison ends d e).Alike A w
      (Eval.ensuring x (Eval.leave (m.nextFrameOf name scope) keep) (m.called name scope))
      (Eval.ensuring y (Eval.leave (m.nextFrameOf name scope) keep)
        ((m.called name scope).atDepth e)) := by
  by_cases hlost : ∃ h r, x (m.called name scope) = .error h r ∧ ends.lost h
  · -- The first call is lost, and stays so when its frame is left.
    obtain ⟨h, r, hxm, hl⟩ := hlost
    obtain ⟨g, l, hens, hg⟩ :=
      Eval.ensuring_leave_of_error hxm (m.nextFrameOf name scope) keep
    rw [hens]
    rcases hg with rfl | ⟨f, rfl⟩
    · exact alike_of_lost hl _ _
    · exact alike_of_lost (ends.fault hl f) _ _
  · have hn : (m.atDepth e).Coherent := hm
    have hsame := same_of_alike hx fun g k hr hg => hlost ⟨g, k, hr, hg⟩
    have hfirst := hsame.within
    rw [hc] at hfirst
    have hsecond : ((m.atDepth e).called name scope).Within
        (Outcome.machine (y ((m.called name scope).atDepth e))) := by
      rw [hsame.second]
      exact ⟨hfirst.frames, hfirst.hidden, rfl, hfirst.scopes_size, hfirst.scopes_get,
        hfirst.scopes_active⟩
    have hy : Eval.ensuring y (Eval.leave (m.nextFrameOf name scope) keep)
        ((m.called name scope).atDepth e) = _ := Eval.ensuring_leave_eq hn keep y hsecond
    rw [Eval.ensuring_leave_eq hm keep x hfirst, hy]
    refine alike_onMachine hx fun r q hrq => ?_
    obtain ⟨hr, rfl⟩ := hrq
    rw [hc] at hr
    exact ⟨hback r hr, rfl⟩

/-- A step in a call of its own corresponds if it does so from all machines at these depths. -/
theorem bracketed_respects {x : Eval α} {y : Eval β} (w : Depths d) (name : Bytes)
    (hx : ∀ w, (comparison ends d e).Respects A w x y) :
    (comparison ends d e).Respects A w (Eval.bracketed name x) (Eval.bracketed name y) := by
  intro m n h
  obtain ⟨hm, rfl⟩ := id h
  have hcoherent := h.coherent
  have hsecond : (m.atDepth e).Coherent := hcoherent
  rw [Eval.bracketed_start hcoherent, Eval.bracketed_start hsecond]
  let c : Depths d := ⟨m.called name m.active, m.coherent_called .., h.depth_eq⟩
  have hin := hx c _ _ ⟨.refl _, rfl⟩
  exact ensuring_alike hcoherent m.scopes.size c rfl hin fun r hr => hm.resumed_called hr

/-- A step in a call with a scope of its own corresponds if it does so from all machines at these
    depths. -/
theorem bracketedIn_respects {x : Eval α} {y : Eval β} (w : Depths d) (name scopeName : Bytes)
    (hx : ∀ w, (comparison ends d e).Respects A w x y) :
    (comparison ends d e).Respects A w (Eval.bracketedIn name scopeName x)
      (Eval.bracketedIn name scopeName y) := by
  intro m n h
  obtain ⟨hm, rfl⟩ := id h
  have hcoherent := h.coherent
  have hsecond : (m.atDepth e).Coherent := hcoherent
  rw [Eval.bracketedIn_start hcoherent, Eval.bracketedIn_start hsecond]
  let c : Depths d := ⟨m.callee name scopeName, Machine.coherent_called .., h.depth_eq⟩
  have hin := hx c _ _ ⟨.refl _, rfl⟩
  have hscope : (m.withScope scopeName).Coherent := hcoherent
  exact ensuring_alike hscope m.scopes.size c rfl hin fun r hr => hm.resumed_callee hr

end Depths

/-! ### The simulation -/

/-- **Evaluations at different depths.** -/
def Simulation.depths (ends : Halt.Ends) (d e : Nat) : Simulation :=
  .same (Depths d) (.guarded ends) (Depths.Same e)
    (by rintro w m n ⟨-, rfl⟩; rfl)
    (by
      rintro w m n vs ⟨hm, rfl⟩
      exact ⟨hm.trans ⟨rfl, rfl, rfl, rfl, fun _ _ => rfl, rfl⟩, rfl⟩)
    (by
      rintro w m n ⟨hm, rfl⟩
      exact ⟨rfl, hm.trans ⟨rfl, rfl, rfl, rfl, fun _ _ => rfl, rfl⟩, rfl⟩)
    Depths.lookup_respects
    Depths.bind_respects
    Depths.bracketed_respects
    Depths.bracketedIn_respects

namespace Depths

variable {d e : Nat} {ends : Halt.Ends}

theorem program_refl (p : Program) : (Simulation.depths ends d e).program p p :=
  List.forall₂_same.mpr fun _ _ => rfl

/-- The built-in operators do not look at the depth, so that they are respected. -/
theorem keepsTable (he : ends.shared .exhausted) : (Simulation.depths ends d e).KeepsTable .builtin :=
  Simulation.keepsTable_builtin _ ⟨rfl, he⟩

/-- Contexts correspond if their parsers parse alike, their rounds are comparable and their runs of
    programs correspond. -/
theorem contexts {parse parse' : Parser} {run run' : Program → Eval Unit} {rounds rounds' : Nat}
    (hparse : ends.ParsesAlike parse parse') (hrounds : ends.Rounds rounds rounds')
    (hrun : ∀ w p, (Simulation.depths ends d e).Respects Eq w (run p) (run' p)) :
    (Simulation.depths ends d e).Contexts ⟨parse, run, rounds⟩ ⟨parse', run', rounds'⟩ := by
  refine .of_parse (fun source => ?_) ?_ fun he => hrounds he.2
  · rcases hparse source with ⟨hsame, hshared⟩ | hlost
    · cases hs : parse source with
      | ok p => exact Or.inl ⟨p, p, hs, hsame.trans hs, program_refl p⟩
      | error i => exact Or.inr (Or.inl ⟨i, i, hs, hsame.trans hs, rfl, hshared i hs⟩)
    · exact Or.inr (Or.inr hlost)
  · intro w p q hpq
    obtain rfl : p = q := List.forall₂_eq_eq_eq ▸ hpq
    exact hrun w p

/-- One level deeper, the calls stay together, if the second one goes there whenever the first one
    does, and the first one is lost where it does not. -/
theorem nested_respects {limit limit' : Nat} {x y : Eval Unit}
    (hx : d < limit → ∀ w, (comparison ends (d + 1) (e + 1)).Respects Eq w x y)
    (hdeep : limit ≤ d → ends.lost (.ofCause (.tooDeep limit) []) ∨ limit = limit' ∧ limit' ≤ e)
    (hhead : d < limit → e < limit') (w : Depths d) :
    (comparison ends d e).Respects Eq w (Eval.nested limit x) (Eval.nested limit' y) := by
  intro m n h
  have hd : m.depth = d := h.depth_eq
  obtain ⟨hm, rfl⟩ := id h
  rw [Eval.nested_eq, Eval.nested_eq]
  have he : (m.atDepth e).depth = e := rfl
  rw [hd, he]
  -- At its limit the first call is lost, or the second one is at the same limit.
  by_cases hlimit : limit ≤ d
  · rw [if_pos hlimit]
    rcases hdeep hlimit with hl | ⟨rfl, hle⟩
    · exact alike_of_lost hl _ _
    · rw [if_pos hle]
      exact alike_of_shared (ends.ofCause [] nofun) h
  · have hlow := hhead (by omega)
    rw [if_neg hlimit, if_neg (by omega)]
    -- One level deeper both calls begin in machines that differ in their depths only.
    let c : Depths (d + 1) := ⟨{ m with depth := d + 1 }, h.coherent, rfl⟩
    have hin := hx (by omega) c { m with depth := d + 1 } { m with depth := e + 1 } ⟨.refl _, rfl⟩
    refine alike_onMachine hin fun r q hrq => ?_
    obtain ⟨hr, rfl⟩ := hrq
    have hdepth : r.depth - 1 = m.depth := by
      rw [hr.depth, hd]
      rfl
    exact ⟨hm.trans ⟨hr.frames, hr.hidden, hdepth, hr.scopes_size, hr.scopes_get,
      hr.scopes_active⟩, rfl⟩

end Depths

/-! ### Whole programs -/

namespace Evaluator

variable (parse : Parser) (rounds : Nat)

/-- A program is its symbols one level deeper, unless the limit of nesting is met. -/
theorem run_succ (limit levels : Nat) (p : Program) (m : Machine) :
    (Evaluator.builtin parse limit rounds).run (levels + 1) p m
      = if limit ≤ m.depth then .error (.ofCause (.tooDeep limit) []) m
        else Outcome.onMachine (fun r => r.atDepth (r.depth - 1))
          (steps .builtin ((Evaluator.builtin parse limit rounds).context levels) p
            (m.atDepth (m.depth + 1))) :=
  Eval.nested_eq ..

variable {parse rounds} {parse' : Parser} {t : OperatorTable} {limit limit' rounds' : Nat}

/-- **Headroom.** A call at a depth `d` under one limit, and the same call at a depth `e` under
    another limit that is at least as far away, end alike, unless the first one is lost.  The
    first one is lost at its limit, or the limits are the same; and it is lost at source text that
    the two calls do not parse alike. -/
theorem run_headroom (ends : Halt.Ends) (ht : ∀ d e, (Simulation.depths ends d e).KeepsTable t)
    (hparse : ends.ParsesAlike parse parse') (hrounds : ends.Rounds rounds rounds') :
    ∀ (levels levels' d e : Nat), limit < levels + d → limit' < levels' + e →
      limit + e ≤ limit' + d → d ≤ limit →
      ends.lost (.ofCause (.tooDeep limit) []) ∨ limit = limit' ∧ d = e →
      ∀ (w : Depths d) (p : Program), (Simulation.depths ends d e).Respects Eq w
        ((⟨t, parse, limit, rounds⟩ : Evaluator).run levels p)
        ((⟨t, parse', limit', rounds'⟩ : Evaluator).run levels' p)
  | 0, _, _, _, hlevels, _, _, hd, _, _, _ => by omega
  | _ + 1, 0, _, _, _, hlevels', hhead, hd, _, _, _ => by omega
  | levels + 1, levels' + 1, d, e, hlevels, hlevels', hhead, hd, hdeep, w, p => by
    refine Depths.nested_respects (fun hlow w' => ?_)
      (fun hle => hdeep.imp_right fun h => ⟨h.1, by omega⟩)
      (show d < limit → e < limit' by omega) w
    -- The induction is on the levels of the first call; the second one has at least as many left.
    have hinner := run_headroom ends ht hparse hrounds levels levels' (d + 1) (e + 1) (by omega)
      (by omega) (by omega) hlow (hdeep.imp_right fun h => ⟨h.1, by omega⟩)
    exact Simulation.steps_respects (ht _ _) (Depths.contexts hparse hrounds hinner)
      (Depths.program_refl p)

variable (parse rounds)

/-- The symbols of a program, too, have the same outcome but for the depth, unless they come to
    the limit of the first call. -/
theorem steps_headroom {levels levels' d e : Nat} (hlevels : levels + d = limit + 1)
    (hlevels' : levels' + e = limit' + 1) (hhead : limit + e ≤ limit' + d) (hd : d ≤ limit)
    (w : Depths d) (p : Program) :
    (Simulation.depths .deep d e).Respects Eq w
      (steps .builtin ((Evaluator.builtin parse limit rounds).context levels) p)
      (steps .builtin ((Evaluator.builtin parse limit' rounds).context levels') p) :=
  Simulation.steps_respects (Depths.keepsTable Halt.fine_exhausted)
    (Depths.contexts (.refl fun _ i _ => Halt.fine_issue i) (fun _ => Or.inl rfl)
      (run_headroom .deep (fun _ _ => Depths.keepsTable Halt.fine_exhausted)
        (.refl fun _ i _ => Halt.fine_issue i) (fun _ => Or.inl rfl) levels levels' d e (by omega)
        (by omega) hhead hd (Or.inl (Or.inl (Halt.deep_tooDeep limit))))) (Depths.program_refl p)

/-- With another parser a call ends alike, unless it is lost at a text that is not parsed alike, if
    both may share what a loop ends with. -/
theorem run_reparsed (ends : Halt.Ends) (he : ends.shared .exhausted)
    (hparse : ends.ParsesAlike parse parse') (limit : Nat) :
    ∀ (levels d : Nat) (w : Depths d) (p : Program), (Simulation.depths ends d d).Respects Eq w
      ((Evaluator.builtin parse limit rounds).run levels p)
      ((Evaluator.builtin parse' limit rounds).run levels p)
  | 0, _, _, _ => .throw ⟨rfl, he⟩
  | levels + 1, d, w, p => by
    refine Depths.nested_respects (fun _ w' => ?_) (fun hle => Or.inr ⟨rfl, hle⟩) id w
    exact Simulation.steps_respects (Depths.keepsTable he)
      (Depths.contexts hparse (fun _ => Or.inl rfl)
        (run_reparsed ends he hparse limit levels (d + 1))) (Depths.program_refl p)

/-- A call ends as it ends, if both may share what a loop and a parser end with. -/
theorem run_guarded (ends : Halt.Ends) (he : ends.shared .exhausted) (hparse : ends.Parses parse)
    (limit levels d : Nat) (w : Depths d) (p : Program) :
    (Simulation.depths ends d d).Respects Eq w
      ((Evaluator.builtin parse limit rounds).run levels p)
      ((Evaluator.builtin parse limit rounds).run levels p) :=
  run_reparsed parse rounds ends he (.refl hparse) limit levels d w p

/-- The context of an evaluation is like itself. -/
theorem context_guarded {parse : Parser} (ends : Halt.Ends) (he : ends.shared .exhausted)
    (hparse : ends.Parses parse) (limit levels d : Nat) :
    (Simulation.depths ends d d).Contexts ((Evaluator.builtin parse limit rounds).context levels)
      ((Evaluator.builtin parse limit rounds).context levels) :=
  Depths.contexts (.refl hparse) (fun _ => Or.inl rfl)
    (run_guarded parse rounds ends he hparse limit levels d)

/-- **No evaluation ends with a fault.** -/
theorem run_faultless (limit : Nat) {m : Machine} (hm : m.Coherent) (levels : Nat) (p : Program)
    {h : Halt} {k : Machine}
    (hrun : (Evaluator.builtin parse limit rounds).run levels p m = .error h k) : h.Fine :=
  Depths.shared_of_respects .same hm (fun _ h => h)
    (fun w => run_guarded parse rounds .same Halt.fine_exhausted (fun _ i _ => Halt.fine_issue i)
      limit levels m.depth w p) hrun

end Evaluator

end StackLang
