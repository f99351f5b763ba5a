import StackLang.Proofs.Program.WellFormed
import StackLang.Proofs.Evaluation.Independence
import StackLang.Proofs.Evaluation.Sequencing
import StackLang.Proofs.Renumbering.Run

namespace StackLang

/-!
# Lists that have been made

* `Value.Older`, `Program.Older`, `Parser.Older` — what holds only lists made before a certain
  one: it is the same whatever numbers that list and later ones get;
* `Machine.Settled` — a machine that holds only lists that have been made;
* `Eval.Uniform` — a step whose own values are older than a certain list;
* `Eval.Uniform.settled` — such a step leads from settled machines to settled ones;
  `Evaluator.settled_run` — and so do whole programs;
* `Eval.Quiet` — a step that changes nothing but what numbers have been given out;
* `Eval.Quiet.again` — where more numbers have been given out before, such a step ends in the same
  way, up to the numbers of the lists it makes.
-/

namespace Renumbering

/-- The lists made before a certain one keep their numbers. -/
def Fixes (ν : Renumbering) (n : Nat) : Prop := ∀ i < n, ν.number i = i

/-- Numbers that keep some lists keep any that were made before. -/
theorem Fixes.mono {ν : Renumbering} {n k : Nat} (h : ν.Fixes k) (hnk : n ≤ k) : ν.Fixes n :=
  fun i hi => h i (Nat.lt_of_lt_of_le hi hnk)

/-- A certain list and all later ones come later by a gap. -/
def later (since gap : Nat) : Renumbering where
  number i := if i < since then i else i + gap
  injective i j h := by
    dsimp only at h
    split at h <;> split at h <;> omega
  gap := gap

/-- Numbers that come later keep the lists made before. -/
theorem fixes_later (since gap : Nat) : (later since gap).Fixes since := fun _ hi => if_pos hi

/-- Numbers that come later are ahead by the gap. -/
theorem tracks_later (since gap high : Nat) : (later since gap).Tracks since high :=
  fun _ hi _ => if_neg (Nat.not_lt.mpr hi)

end Renumbering

/-! ### Values -/

/-- The value holds only lists made before a certain one. -/
def Value.Older (n : Nat) (v : Value) : Prop := ∀ ν : Renumbering, ν.Fixes n → v.renumbered ν = v

/-- The values in a program are such values. -/
def Program.Older (n : Nat) (p : Program) : Prop :=
  ∀ ν : Renumbering, ν.Fixes n → Program.renumbered ν p = p

/-- The programs that are read from text are such programs. -/
def Parser.Older (n : Nat) (parse : Parser) : Prop :=
  ∀ source p, parse source = .ok p → Program.Older n p

section

variable {n : Nat}

/-- The elements of a value with older lists only have older lists only. -/
theorem Value.Older.elements {v : Value} (h : v.Older n) : ∀ e ∈ v.elements, e.Older n := by
  intro e he ν hν
  have helems := congrArg Value.elements (h ν hν)
  rw [Value.elements_recast] at helems
  exact map_eq_self_iff.mp helems e he

/-- The program of a block with older lists only has older lists only. -/
theorem Value.Older.block {p : Program} (h : (Value.block p).Older n) : Program.Older n p := by
  intro ν hν
  have hblock := h ν hν
  rw [Value.renumbered_block] at hblock
  exact Value.block.inj hblock

end

mutual

/-- A value that a literal can denote has no lists that could get other numbers. -/
theorem Value.renumbered_of_wellFormed (ν : Renumbering) :
    ∀ v : Value, v.isWellFormed = true → v.renumbered ν = v
  | .bool _, _ => rfl
  | .int _, _ => rfl
  | .float _, _ => rfl
  | .str _, _ => rfl
  | .list _ _, h => by simp [Value.isWellFormed] at h
  | .tuple _, h => by simp [Value.isWellFormed] at h
  | .block p, h => congrArg Value.block (Symbol.renumberedAll_of_wellFormed ν p h)

/-- A symbol that source text can denote has no lists that could get other numbers. -/
theorem Symbol.renumbered_of_wellFormed (ν : Renumbering) :
    ∀ s : Symbol, s.isWellFormed = true → s.renumbered ν = s
  | .literal v _, h => congrArg (Symbol.literal · _) (Value.renumbered_of_wellFormed ν v h)
  | .name _ _, _ => rfl
  | .operator _ _, _ => rfl
  | .group .list p _, h => congrArg (Symbol.group _ · _) (Symbol.renumberedAll_of_wellFormed ν p h)
  | .group .tuple p _, h => congrArg (Symbol.group _ · _) (Symbol.renumberedAll_of_wellFormed ν p h)
  | .group .unspecified _ _, h => by simp [Symbol.isWellFormed] at h
  | .blank _, h => by simp [Symbol.isWellFormed] at h

theorem Symbol.renumberedAll_of_wellFormed (ν : Renumbering) :
    ∀ ss : List Symbol, Symbol.areWellFormed ss = true → Symbol.recastAll ν.recast ss = ss
  | [], _ => rfl
  | s :: ss, h => by
    rw [Symbol.areWellFormed, Bool.and_eq_true] at h
    rw [Symbol.recastAll, Symbol.renumberedAll_of_wellFormed ν ss h.2]
    exact congrArg (· :: ss) (Symbol.renumbered_of_wellFormed ν s h.1)

end

/-- No text denotes a list: lists are made when a program runs. -/
theorem Evaluator.parser_older (n : Nat) : Parser.Older n parser := by
  intro source p hp ν _
  have hparse : Program.parse source = .ok p := by
    unfold parser at hp
    split at hp
    · rename_i q hq
      rw [hq, Except.ok.inj hp]
    · exact absurd hp (by simp)
  have hsame := Symbol.renumberedAll_of_wellFormed ν p (Program.parse_wellFormed hparse)
  rwa [Symbol.recastAll_eq] at hsame

/-! ### Machines -/

/-- The machine holds only lists that have been made. -/
def Machine.Settled (m : Machine) : Prop :=
  ∀ ν : Renumbering, ν.Fixes m.nextList → m.map (Value.renumbered ν) 0 = m

namespace Machine

variable {m : Machine}

/-- Under numbers that keep the lists made so far a settled machine is as it was, but for the
    number of its next list. -/
theorem Settled.renumbered (h : m.Settled) {ν : Renumbering} (hν : ν.Fixes m.nextList) :
    m.renumbered ν = { m with nextList := m.nextList + ν.gap } :=
  congrArg (fun k : Machine => { k with nextList := m.nextList + ν.gap }) (h ν hν)

/-- The topmost value of a settled machine holds lists that have been made, and so does what is
    left below it. -/
theorem settled_cons {v : Value} {vs : List Value} (h : (m.withVisible (v :: vs)).Settled) :
    v.Older m.nextList ∧ (m.withVisible vs).Settled := by
  have hvisible : ∀ ν : Renumbering, ν.Fixes m.nextList →
      v.renumbered ν :: vs.map (Value.renumbered ν) = v :: vs :=
    fun ν hν => congrArg (fun k => k.stack.visible) (h ν hν)
  refine ⟨fun ν hν => (List.cons.inj (hvisible ν hν)).1, fun ν hν => ?_⟩
  have hmachine :=
    congrArg (fun k : Machine => k.withVisible (vs.map (Value.renumbered ν))) (h ν hν)
  rw [(List.cons.inj (hvisible ν hν)).2] at hmachine
  have hsame : (m.withVisible vs).map (Value.renumbered ν) 0
      = ((m.withVisible (v :: vs)).map (Value.renumbered ν) 0).withVisible
        (vs.map (Value.renumbered ν)) := rfl
  rw [hsame, (List.cons.inj (hvisible ν hν)).2]
  exact hmachine

/-- The machine at the start of an evaluation holds only lists that have been made, if the global
    bindings and the initial values do. -/
theorem settled_start {memory : Memory} {initial : List Value}
    (hglobals : ∀ ν : Renumbering, ν.Fixes memory.lists →
      memory.globals.map (Value.renumbered ν) = memory.globals)
    (hinitial : ∀ v ∈ initial, v.Older memory.lists) :
    (Evaluator.start memory initial).Settled := by
  intro ν hν
  have hvisible : (initial.reverseAux []).map (Value.renumbered ν) = initial.reverseAux [] := by
    rw [List.reverseAux_eq, List.append_nil, List.map_reverse,
      map_eq_self_iff.mpr fun v hv => hinitial v hv ν hν]
  have hstack : (Evaluator.start memory initial).stack.map (Value.renumbered ν)
      = (Evaluator.start memory initial).stack := Stack.ext_of_values hvisible rfl
  have hscopes : (Scopes.root memory.globals).map (Value.renumbered ν)
      = Scopes.root memory.globals := by
    simp [Scopes.map, Scopes.root, Scopes.mapScope, hglobals ν hν]
  show { Evaluator.start memory initial with
    stack := (Evaluator.start memory initial).stack.map (Value.renumbered ν)
    scopes := (Scopes.root memory.globals).map (Value.renumbered ν) } = _
  rw [hstack, hscopes]
  rfl

end Machine

/-! ### Steps -/

namespace Eval

variable {α : Type} {f : Renumbering → α → α} {n : Nat} {x : Eval α} {m : Machine}

/-- A step whose own values hold only lists made before a certain one. -/
def Uniform (n : Nat) (f : Renumbering → α → α) (x : Eval α) : Prop :=
  ∀ ν : Renumbering, ν.Fixes n → Follows ν (f ν) x x

/-- No numbers are taken back. -/
theorem Uniform.le (hx : Uniform n f x) (m : Machine) :
    m.nextList ≤ (Outcome.machine (x m)).nextList :=
  (hx (.later n 0) (Renumbering.fixes_later n 0) m).1

/-- A uniform step takes back no numbers. -/
theorem Uniform.le_of_ok (hx : Uniform n f x) {a : α} {k : Machine} (h : x m = .ok a k) :
    m.nextList ≤ k.nextList := by
  have hle := hx.le m
  rwa [h] at hle

/-- **What a step makes has been made at its end.**  A renumbering that keeps all numbers given out
    until then leads to the same end. -/
theorem Uniform.settled (hx : Uniform n f x) (hm : m.Settled) (hn : n ≤ m.nextList) :
    (Outcome.machine (x m)).Settled := by
  intro ν hν
  have hle := hx.le m
  let same : Renumbering := { ν with gap := 0 }
  have hfixes : same.Fixes m.nextList := Renumbering.Fixes.mono (ν := same) hν hle
  have hstart : m.renumbered same = m := hm.renumbered hfixes
  have hend := (hx same (hfixes.mono hn) m).2 fun i _ hi => hν i hi
  rw [hstart] at hend
  have hmachine : (Outcome.machine (x m)).renumbered same = Outcome.machine (x m) := by
    conv_rhs => rw [hend]
    cases x m <;> rfl
  exact hmachine

/-- Where more lists have been made before, a step ends in the same way, and makes later lists. -/
theorem Uniform.later (hx : Uniform n f x) (hm : m.Settled) (hn : n ≤ m.nextList) (gap : Nat) :
    x { m with nextList := m.nextList + gap }
      = Outcome.renumbered (.later m.nextList gap) (f (.later m.nextList gap)) (x m) := by
  have hfixes := Renumbering.fixes_later m.nextList gap
  have hend := (hx _ (hfixes.mono hn) m).2 (Renumbering.tracks_later _ _ _)
  rwa [hm.renumbered hfixes] at hend

/-- A step that changes nothing but what numbers have been given out, and depends neither on the
    stack nor on frames. -/
structure Quiet (n : Nat) (f : Renumbering → α → α) (x : Eval α) : Prop where
  uniform : Uniform n f x
  independent : Independent x
  leaves : ∀ m a k, m.Coherent → x m = .ok a k →
    ∃ frames lists, k = { m with nextFrame := frames, nextList := lists }

/-- A quiet step gives out some numbers. -/
theorem Quiet.ahead (hx : Quiet n f x) (hcoherent : m.Coherent) {a : α} {k : Machine}
    (h : x m = .ok a k) :
    ∃ frames gap, k = { m with nextFrame := frames, nextList := m.nextList + gap } := by
  obtain ⟨frames, lists, rfl⟩ := hx.leaves m a k hcoherent h
  have hle : m.nextList ≤ lists := hx.uniform.le_of_ok h
  exact ⟨frames, lists - m.nextList, by rw [Nat.add_sub_cancel' hle]⟩

/-- **Once more.**  Where more numbers have been given out before, a quiet step succeeds with the
    same result, up to the numbers of the lists it makes, or fails for the same reason. -/
theorem Quiet.again (hx : Quiet n f x) (hcoherent : m.Coherent) (hm : m.Settled)
    (hn : n ≤ m.nextList) (frames gap : Nat) :
    (∀ a k, x m = .ok a k → ∃ frames',
      x { m with nextFrame := frames, nextList := m.nextList + gap }
        = .ok (f (.later m.nextList gap) a)
          { m with nextFrame := frames', nextList := k.nextList + gap }) ∧
    ∀ h k, x m = .error h k → ∃ k',
      x { m with nextFrame := frames, nextList := m.nextList + gap } = .error h k' := by
  -- The machine that has given out more numbers is compared in two steps: the numbers of the lists
  -- that come are later by the gap, and frames do not matter.
  let ahead := { m with nextFrame := frames, nextList := m.nextList + gap }
  have hlater := hx.uniform.later hm hn gap
  have hagree : Machine.Agree m.depth { m with nextList := m.nextList + gap } ahead :=
    ⟨hcoherent, hcoherent, rfl, rfl, rfl, rfl, rfl⟩
  have hsame := hx.independent _ _ _ hagree
  rw [hlater] at hsame
  constructor
  · intro a k hk
    rw [hk] at hsame
    rcases hsame with ⟨h, _, _, herror, -⟩ | ⟨b, left, r, l, hr, hl, -, -, hrl⟩
    · exact absurd herror nofun
    · -- The step changes nothing but numbers, so that the last machine is told by its next list.
      injection hr with ha hr
      obtain ⟨frames', lists, rfl⟩ := hx.leaves ahead b l hcoherent hl
      have hnext : lists = k.nextList + gap := by
        rw [show lists = r.nextList from hrl.nextList.symm, ← hr]
        rfl
      refine ⟨frames', ?_⟩
      rw [ha, ← hnext]
      exact hl
  · intro h k hk
    rw [hk] at hsame
    rcases hsame with ⟨g, _, l, herror, hl⟩ | ⟨_, _, _, _, hok, -⟩
    · injection herror with hhalt
      rw [hhalt]
      exact ⟨l, hl⟩
    · exact absurd hok nofun

/-- After one quiet step another one ends as it does without the first, up to the numbers of the
    lists it makes. -/
theorem Quiet.after {β : Type} {g : Renumbering → β → β} {y : Eval β} (hy : Quiet n g y)
    (hx : Quiet n f x) (hcoherent : m.Coherent) (hm : m.Settled) (hn : n ≤ m.nextList) {a : α}
    {k : Machine} (hk : x m = .ok a k) :
    (∀ b l, y m = .ok b l → ∃ frames,
      y k = .ok (g (.later m.nextList (k.nextList - m.nextList)) b)
        { m with nextFrame := frames, nextList := l.nextList + (k.nextList - m.nextList) }) ∧
    ∀ h l, y m = .error h l → ∃ l', y k = .error h l' := by
  obtain ⟨frames, gap, rfl⟩ := hx.ahead hcoherent hk
  simp only [Nat.add_sub_cancel_left]
  exact hy.again hcoherent hm hn frames gap

/-- Two quiet steps, one after the other, are a quiet step. -/
theorem Quiet.both {β γ : Type} {g : Renumbering → β → β} {h : Renumbering → γ → γ} {y : Eval β}
    (hx : Quiet n f x) (hy : Quiet n g y) {c : α → β → γ}
    (hc : ∀ ν a b, h ν (c a b) = c (f ν a) (g ν b)) :
    Quiet n h (do let a ← x; let b ← y; pure (c a b)) where
  uniform ν hν := (hx.uniform ν hν).bind fun a => (hy.uniform ν hν).bind fun b => by
    rw [← hc]
    exact .pure (c a b)
  independent := hx.independent.bind fun a => hy.independent.bind fun b => .pure (c a b)
  leaves m r k hm hr := by
    obtain ⟨a, l, hxa, hr⟩ := Evaluator.exists_of_bind_ok hr
    obtain ⟨frames, lists, rfl⟩ := hx.leaves m a l hm hxa
    obtain ⟨b, l, hyb, hr⟩ := Evaluator.exists_of_bind_ok hr
    obtain ⟨frames', lists', rfl⟩ :=
      hy.leaves { m with nextFrame := frames, nextList := lists } b l hm hyb
    injection hr with _ hk
    exact ⟨frames', lists', hk.symm⟩

end Eval

/-! ### Code -/

section

variable {parse : Parser} (maxDepth rounds levels : Nat) {n : Nat}

/-- A program without newer lists is uniform. -/
theorem Evaluator.run_uniform (hparse : parse.Older n) {p : Program} (hp : Program.Older n p) :
    Eval.Uniform n (fun _ => id) ((Evaluator.builtin parse maxDepth rounds).run levels p) := by
  intro ν hν
  have hrun := run_follows (ν := ν) maxDepth rounds
    (fun source q hq => hparse source q hq ν hν) levels p
  rwa [hp ν hν] at hrun

/-- **Programs lead from settled machines to settled ones.** -/
theorem Evaluator.settled_run {m : Machine} (hparse : parse.Older m.nextList) {p : Program}
    (hp : Program.Older m.nextList p) (hm : m.Settled) :
    (Outcome.machine ((Evaluator.builtin parse maxDepth rounds).run levels p m)).Settled :=
  (run_uniform maxDepth rounds levels hparse hp).settled hm (Nat.le_refl _)

/-- Behind the one value that is left there is nothing. -/
theorem Context.visible_of_oneValue {what : Bytes} {m k : Machine} {v : Value}
    (h : oneValue what m = .ok v k) : k.stack.visible = [] := by
  rw [Simulation.oneValue_eq] at h
  split at h
  · rename_i hone
    obtain ⟨u, hu⟩ := List.length_eq_one_iff.mp hone
    simp only [Eval.pop, Stack.pop, hu] at h
    injection h with _ hk
    rw [← hk]
  · cases h

/-- Nothing is left of the evaluation of a block for its one value. -/
theorem Context.single_leaves (what scopeName : Bytes) (body : Program) (args : List Value)
    {m k : Machine} {v : Value} (hm : m.Coherent)
    (h : ((Evaluator.builtin parse maxDepth rounds).context levels).single what scopeName body args
      m = .ok v k) : ∃ frames lists, k = { m with nextFrame := frames, nextList := lists } := by
  let ctx := (Evaluator.builtin parse maxDepth rounds).context levels
  let inner : Eval Value := do
    Eval.pushAll args
    ctx.run body
    oneValue what
  let callee := m.callee what scopeName
  have hin : callee.Within (Outcome.machine (inner callee)) :=
    Callers.within_of_respects (Machine.coherent_called ..) fun w =>
      single_inner parse maxDepth rounds levels w what body args
  rw [show ctx.single what scopeName body args m = _ from
    Eval.bracketedIn_eq hm what scopeName inner hin] at h
  cases hinner : inner callee with
  | error e r =>
    rw [hinner] at h
    exact absurd h nofun
  | ok u r =>
    rw [hinner] at h hin
    injection h with _ hk
    -- The one value has been taken off, and so nothing is left above the caller's values.
    have hvisible : r.stack.visible = [] := by
      obtain ⟨_, _, _, hlast⟩ := Evaluator.exists_of_bind_ok hinner
      obtain ⟨_, _, _, hlast⟩ := Evaluator.exists_of_bind_ok hlast
      exact visible_of_oneValue hlast
    have hdepth : r.depth = m.depth := hin.depth
    have hscopes : (m.resumed r).scopes = m.scopes := hin.resumed_scopes
    refine ⟨r.nextFrame, r.nextList, ?_⟩
    rw [← hk]
    show { r with
      stack := m.stack.joined r.stack.visible
      frames := m.frames
      scopes := (m.resumed r).scopes } = _
    rw [hvisible, hscopes, hdepth]
    rfl

/-- The one value that a block leaves: its evaluation behind a boundary is quiet. -/
theorem Context.single_quiet (hparse : parse.Older n) (what scopeName : Bytes) {body : Program}
    (hbody : Program.Older n body) {args : List Value} (hargs : ∀ v ∈ args, v.Older n) :
    Eval.Quiet n Value.renumbered
      (((Evaluator.builtin parse maxDepth rounds).context levels).single what scopeName body
        args) where
  uniform ν hν := by
    have hsingle := (Evaluator.context_follows (ν := ν) maxDepth rounds levels
      fun source q hq => hparse source q hq ν hν).single what scopeName body args
    rwa [hbody ν hν, map_eq_self_iff.mpr fun v hv => hargs v hv ν hν] at hsingle
  independent := single_independent parse maxDepth rounds levels what scopeName body args
  leaves _ _ _ hm h := single_leaves maxDepth rounds levels what scopeName body args hm h

end

end StackLang
