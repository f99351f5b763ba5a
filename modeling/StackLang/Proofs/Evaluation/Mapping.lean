import StackLang.Proofs.Renumbering.Settled

namespace StackLang

/-!
# Mapping a block over a sequence

The block is evaluated for each element behind a boundary and in a scope of its own, so that no
element notices the others: it finds the same stack, the same bindings and the same depth, and
differs only in the numbers that its lists get.

* `Control.mapEach_quiet` — the loop of map leaves nothing but numbers given out;
* `Control.mapEach_append_ok`, `mapEach_append_error_iff` — mapping over a sequence made of two;
* `Control.mapEach_error_iff` — which element makes map fail;
* `Control.mapEach_own` — each result is what the block makes of its element alone;
* `Control.mapList` — the loop, and the new list with its results;
* `Evaluator.map_independent` — all of this for the operator.
-/

open Evaluator (bind_of_ok bind_of_error exists_of_bind_ok)

namespace Control

variable {act : Value → Eval Value}

/-! ### The loop -/

/-- Results collected before are put in front of those to come. -/
theorem mapEach_results (results vs : List Value) :
    mapEach act results vs = (do let rs ← mapEach act [] vs; pure (results.reverse ++ rs)) := by
  induction vs generalizing results with
  | nil => simp [mapEach]
  | cons v vs ih =>
    rw [mapEach, mapEach, bind_assoc]
    refine congrArg _ (funext fun r => ?_)
    rw [ih (r :: results), ih [r], bind_assoc]
    simp

/-- The first result is that of the first element. -/
theorem mapEach_cons (v : Value) (vs : List Value) :
    mapEach act [] (v :: vs) =
      (do let r ← act v; let rs ← mapEach act [] vs; pure (r :: rs)) := by
  rw [mapEach]
  exact congrArg _ (funext fun r => mapEach_results [r] vs)

/-- The results for two sequences put together are put together. -/
theorem mapEach_append (us vs : List Value) :
    mapEach act [] (us ++ vs) =
      (do let as ← mapEach act [] us; let bs ← mapEach act [] vs; pure (as ++ bs)) := by
  induction us with
  | nil => simp [mapEach]
  | cons u us ih =>
    rw [List.cons_append, mapEach_cons, mapEach_cons, ih]
    simp

/-! ### Elements on their own -/

section

variable {n : Nat}

/-- **The loop of map is quiet**, if the step for each element is. -/
theorem mapEach_quiet {vs : List Value} (h : ∀ v ∈ vs, Eval.Quiet n Value.renumbered (act v)) :
    Eval.Quiet n (fun ν => List.map (Value.renumbered ν)) (mapEach act [] vs) := by
  induction vs with
  | nil =>
    refine ⟨fun ν _ => .pure [], .pure [], fun m rs k _ hk => ?_⟩
    injection hk with _ hk
    exact ⟨m.nextFrame, m.nextList, hk.symm⟩
  | cons v vs ih =>
    rw [mapEach_cons]
    exact (h v List.mem_cons_self).both (ih fun u hu => h u (List.mem_cons_of_mem v hu))
      fun _ _ _ => List.map_cons

variable {m : Machine} (hcoherent : m.Coherent) (hm : m.Settled) (hn : n ≤ m.nextList)

include hcoherent hm hn

/-- Mapping over two sequences, one behind the other, gives the results for both.  The lists in the
    results for the second sequence are made later. -/
theorem mapEach_append_ok {us vs as bs : List Value} {k l : Machine}
    (hus : ∀ u ∈ us, Eval.Quiet n Value.renumbered (act u))
    (hvs : ∀ v ∈ vs, Eval.Quiet n Value.renumbered (act v))
    (hu : mapEach act [] us m = .ok as k) (hv : mapEach act [] vs m = .ok bs l) :
    ∃ frames, mapEach act [] (us ++ vs) m =
      .ok (as ++ bs.map (Value.renumbered (.later m.nextList (k.nextList - m.nextList))))
        { m with nextFrame := frames, nextList := l.nextList + (k.nextList - m.nextList) } := by
  obtain ⟨frames, hafter⟩ :=
    ((mapEach_quiet hvs).after (mapEach_quiet hus) hcoherent hm hn hu).1 bs l hv
  refine ⟨frames, ?_⟩
  rw [mapEach_append, bind_of_ok hu, bind_of_ok hafter]
  rfl

/-- Once the first of two sequences is done, only the second one matters. -/
theorem mapEach_append_error_iff {us vs as : List Value} {k : Machine}
    (hus : ∀ u ∈ us, Eval.Quiet n Value.renumbered (act u))
    (hvs : ∀ v ∈ vs, Eval.Quiet n Value.renumbered (act v))
    (hu : mapEach act [] us m = .ok as k) (h : Halt) :
    (∃ l, mapEach act [] (us ++ vs) m = .error h l) ↔ ∃ l, mapEach act [] vs m = .error h l := by
  cases hv : mapEach act [] vs m with
  | ok bs l =>
    obtain ⟨frames, hboth⟩ := mapEach_append_ok hcoherent hm hn hus hvs hu hv
    rw [hboth]
    simp
  | error e l =>
    obtain ⟨l', hafter⟩ :=
      ((mapEach_quiet hvs).after (mapEach_quiet hus) hcoherent hm hn hu).2 e l hv
    rw [mapEach_append, bind_of_ok hu, bind_of_error hafter]
    simp

/-- Mapping over two sequences, one behind the other, succeeds where mapping over both does. -/
theorem mapEach_append_ok_iff {us vs : List Value}
    (hus : ∀ u ∈ us, Eval.Quiet n Value.renumbered (act u))
    (hvs : ∀ v ∈ vs, Eval.Quiet n Value.renumbered (act v)) :
    (∃ rs k, mapEach act [] (us ++ vs) m = .ok rs k) ↔
      (∃ as k, mapEach act [] us m = .ok as k) ∧ ∃ bs k, mapEach act [] vs m = .ok bs k := by
  constructor
  · rintro ⟨rs, k, h⟩
    have hboth := h
    rw [mapEach_append] at h
    obtain ⟨as, l, hu, -⟩ := exists_of_bind_ok h
    refine ⟨⟨as, l, hu⟩, ?_⟩
    cases hv : mapEach act [] vs m with
    | ok bs l => exact ⟨bs, l, rfl⟩
    -- If the second part failed by itself, it would fail behind the first one too.
    | error e l =>
      obtain ⟨_, he⟩ := (mapEach_append_error_iff hcoherent hm hn hus hvs hu e).mpr ⟨l, hv⟩
      cases he.symm.trans hboth
  · rintro ⟨⟨as, k, hu⟩, bs, l, hv⟩
    obtain ⟨frames, hboth⟩ := mapEach_append_ok hcoherent hm hn hus hvs hu hv
    exact ⟨_, _, hboth⟩

/-- **The first element that fails.**  The loop fails as the step for an element does, if the steps
    for all elements before it succeed. -/
theorem mapEach_error_iff {vs : List Value}
    (hvs : ∀ v ∈ vs, Eval.Quiet n Value.renumbered (act v)) (h : Halt) :
    (∃ k, mapEach act [] vs m = .error h k) ↔
      ∃ before e after k, vs = before ++ e :: after ∧
        (∀ a ∈ before, ∃ r l, act a m = .ok r l) ∧ act e m = .error h k := by
  induction vs with
  | nil => simp [mapEach, pure, EStateM.pure]
  | cons v vs ih =>
    have hrest : ∀ u ∈ vs, Eval.Quiet n Value.renumbered (act u) :=
      fun u hu => hvs u (List.mem_cons_of_mem v hu)
    cases hv : act v m with
    | error e l =>
      -- The element itself is the first one that fails.
      rw [mapEach_cons, bind_of_error hv]
      constructor
      · rintro ⟨k, hk⟩
        injection hk with he _
        exact ⟨[], v, vs, l, rfl, by simp, he ▸ hv⟩
      · rintro ⟨before, e', after, k, hsplit, hbefore, he'⟩
        cases before with
        | nil =>
          obtain ⟨rfl, -⟩ := List.cons.inj hsplit
          injection hv.symm.trans he' with hh _
          exact ⟨l, by rw [hh]⟩
        | cons a before =>
          obtain ⟨rfl, -⟩ := List.cons.inj hsplit
          obtain ⟨r, k', hr⟩ := hbefore v List.mem_cons_self
          cases hv.symm.trans hr
    | ok r l =>
      -- It leaves the machine to the others as it was, up to numbers.
      have hfirst : mapEach act [] [v] m = .ok [r] l := bind_of_ok hv
      have hstep : (∃ k, mapEach act [] (v :: vs) m = .error h k) ↔
          ∃ k, mapEach act [] vs m = .error h k :=
        mapEach_append_error_iff hcoherent hm hn
          (fun u hu => hvs u (List.mem_singleton.mp hu ▸ List.mem_cons_self)) hrest hfirst h
      rw [hstep, ih hrest]
      constructor
      · rintro ⟨before, e, after, k, rfl, hbefore, he⟩
        exact ⟨v :: before, e, after, k, rfl, List.forall_mem_cons.mpr ⟨⟨r, l, hv⟩, hbefore⟩, he⟩
      · rintro ⟨before, e, after, k, hsplit, hbefore, he⟩
        cases before with
        | nil =>
          obtain ⟨rfl, -⟩ := List.cons.inj hsplit
          cases hv.symm.trans he
        | cons a before =>
          exact ⟨before, e, after, k, (List.cons.inj hsplit).2,
            fun u hu => hbefore u (List.mem_cons_of_mem a hu), he⟩

/-- **Each result is an element's own**: what the step makes of it first of all, up to the numbers
    of the lists that it makes. -/
theorem mapEach_own {vs rs : List Value} {k : Machine}
    (hvs : ∀ v ∈ vs, Eval.Quiet n Value.renumbered (act v)) (frames gap : Nat)
    (h : mapEach act [] vs { m with nextFrame := frames, nextList := m.nextList + gap }
      = .ok rs k) :
    List.Forall₂ (fun e r' => ∃ r l gap, act e m = .ok r l ∧
      r' = r.renumbered (.later m.nextList gap)) vs rs := by
  -- A later element finds more numbers given out, so the induction is for all starts ahead of `m`.
  induction vs generalizing rs k frames gap with
  | nil =>
    injection h with hrs _
    rw [← hrs]
    exact .nil
  | cons v vs ih =>
    have hv := hvs v List.mem_cons_self
    rw [mapEach_cons] at h
    obtain ⟨r', l', hr', h⟩ := exists_of_bind_ok h
    obtain ⟨rs', k', hrs', h⟩ := exists_of_bind_ok h
    injection h with hrs _
    have hagain := hv.again hcoherent hm hn frames gap
    cases hr : act v m with
    | error e l =>
      obtain ⟨_, he⟩ := hagain.2 e l hr
      cases he.symm.trans hr'
    | ok r l =>
      obtain ⟨frames', hok⟩ := hagain.1 r l hr
      injection hok.symm.trans hr' with hr'' hl'
      obtain ⟨_, gap', rfl⟩ := hv.ahead hcoherent hr
      rw [← hl', Nat.add_assoc] at hrs'
      rw [← hrs, ← hr'']
      exact .cons ⟨r, _, gap, hr, rfl⟩ (ih (fun u hu => hvs u (List.mem_cons_of_mem v hu)) _ _ hrs')

end

/-! ### The new list -/

/-- The step for each element of a sequence, whose results are pushed as one new list. -/
def mapList (act : Value → Eval Value) (vs : List Value) : Eval Unit := do
  let rs ← mapEach act [] vs
  Eval.pushList rs

/-- A map succeeds where all results are found, which become one new list. -/
theorem mapList_ok_iff (vs : List Value) (m k : Machine) :
    mapList act vs m = .ok () k ↔
      ∃ rs l, mapEach act [] vs m = .ok rs l ∧
        k = { l with stack := l.stack.push (.list l.nextList rs), nextList := l.nextList + 1 } := by
  constructor
  · intro h
    obtain ⟨rs, l, hrs, hk⟩ := exists_of_bind_ok h
    injection hk with _ hk
    exact ⟨rs, l, hrs, hk.symm⟩
  · rintro ⟨rs, l, hrs, rfl⟩
    exact bind_of_ok hrs

/-- A map succeeds if and only if all results are found. -/
theorem exists_mapList_ok_iff (vs : List Value) (m : Machine) :
    (∃ k, mapList act vs m = .ok () k) ↔ ∃ rs l, mapEach act [] vs m = .ok rs l := by
  simp only [mapList_ok_iff]
  constructor
  · rintro ⟨_, rs, l, hrs, -⟩
    exact ⟨rs, l, hrs⟩
  · rintro ⟨rs, l, hrs⟩
    exact ⟨_, rs, l, hrs, rfl⟩

/-- A map fails where the search for results does, in the same machine. -/
theorem mapList_error_iff (vs : List Value) (m k : Machine) (h : Halt) :
    mapList act vs m = .error h k ↔ mapEach act [] vs m = .error h k := by
  unfold mapList
  cases hrs : mapEach act [] vs m with
  | error e l =>
    rw [bind_of_error hrs]
    simp
  | ok rs l =>
    rw [bind_of_ok hrs]
    exact ⟨nofun, nofun⟩

section

variable {n : Nat} {m : Machine} (hcoherent : m.Coherent) (hm : m.Settled) (hn : n ≤ m.nextList)

include hcoherent hm hn

/-- A list with one result for each element, and nothing else. -/
theorem mapList_own {vs : List Value} (hvs : ∀ v ∈ vs, Eval.Quiet n Value.renumbered (act v))
    {k : Machine} (h : mapList act vs m = .ok () k) :
    ∃ frames id rs, m.nextList ≤ id ∧
      k = { m with
        stack := m.stack.push (.list id rs), nextFrame := frames, nextList := id + 1 } ∧
      List.Forall₂ (fun e r' => ∃ r l gap, act e m = .ok r l ∧
        r' = r.renumbered (.later m.nextList gap)) vs rs := by
  obtain ⟨rs, l, hrs, rfl⟩ := (mapList_ok_iff ..).mp h
  have hown := mapEach_own hcoherent hm hn hvs m.nextFrame 0 hrs
  obtain ⟨frames, gap, rfl⟩ := (mapEach_quiet hvs).ahead hcoherent hrs
  exact ⟨frames, m.nextList + gap, rs, Nat.le_add_right .., rfl, hown⟩

/-- The list for a sequence made of two has the results for both. -/
theorem mapList_append {us vs : List Value}
    (hus : ∀ u ∈ us, Eval.Quiet n Value.renumbered (act u))
    (hvs : ∀ v ∈ vs, Eval.Quiet n Value.renumbered (act v)) {k l : Machine}
    (hu : mapList act us m = .ok () k) (hv : mapList act vs m = .ok () l) :
    ∃ i as j bs k', k.stack = m.stack.push (.list i as) ∧ l.stack = m.stack.push (.list j bs) ∧
      mapList act (us ++ vs) m = .ok () k' ∧
      k'.stack = m.stack.push (.list (j + (i - m.nextList))
        (as ++ bs.map (Value.renumbered (.later m.nextList (i - m.nextList))))) := by
  obtain ⟨as, k, has, rfl⟩ := (mapList_ok_iff ..).mp hu
  obtain ⟨bs, l, hbs, rfl⟩ := (mapList_ok_iff ..).mp hv
  obtain ⟨frames, hboth⟩ := mapEach_append_ok hcoherent hm hn hus hvs has hbs
  obtain ⟨_, _, rfl⟩ := (mapEach_quiet hus).leaves m as k hcoherent has
  obtain ⟨_, _, rfl⟩ := (mapEach_quiet hvs).leaves m bs l hcoherent hbs
  exact ⟨_, as, _, bs, _, rfl, rfl, (mapList_ok_iff ..).mpr ⟨_, _, hboth, rfl⟩, rfl⟩

end

end Control

namespace Evaluator

/-- **Map treats elements independently.**  Let a block be mapped over a sequence, on a state in
    which all lists there are have been made.  What an element's own result is, or why it has none,
    is said by the block's evaluation for this element alone, on the state before the first one.

    * If map succeeds, it pushes one new list and changes nothing else.  The list has one result
      for each element, in their order: the element's own, up to the numbers of lists.
    * Before each element the stack, the bindings, the frames and the depth are those before the
      first one.
    * Map fails exactly as the first element does that has no result.
    * Mapping over a sequence made of two succeeds exactly where mapping over both does, and pushes
      the results for the one and then those for the other, up to the numbers of lists. -/
theorem map_independent (parse : Parser) (maxDepth rounds levels : Nat) {m : Machine}
    (hcoherent : m.Coherent) (hparse : parse.Older m.nextList) (body : Program)
    (below : List Value) :
    let ctx := (Evaluator.builtin parse maxDepth rounds).context levels
    let own := fun e => ctx.single (utf8 "map") (utf8 "map") body [e]
    let caller := m.withVisible below
    let given := fun v => m.withVisible (.block body :: v :: below)
    let mapped := fun v => operate .builtin ctx (utf8 "/") (given v)
    (∀ v, Operand.iterable.accepts v = true → (given v).Settled →
      (∀ k, mapped v = .ok () k → ∃ frames id rs, m.nextList ≤ id ∧
        k = { caller with
          stack := caller.stack.push (.list id rs), nextFrame := frames, nextList := id + 1 } ∧
        List.Forall₂ (fun e r' => ∃ r l gap, own e caller = .ok r l ∧
          r' = r.renumbered (.later m.nextList gap)) v.elements rs) ∧
      (∀ before after rs k, v.elements = before ++ after →
        Control.mapEach own [] before caller = .ok rs k →
        (∃ frames lists, k = { caller with nextFrame := frames, nextList := lists }) ∧
        mapped v = (do let rest ← Control.mapEach own [] after; Eval.pushList (rs ++ rest)) k) ∧
      ∀ h, (∃ k, mapped v = .error h k) ↔ ∃ before e after k, v.elements = before ++ e :: after ∧
        (∀ a ∈ before, ∃ r l, own a caller = .ok r l) ∧ own e caller = .error h k) ∧
    ∀ u v w, Operand.iterable.accepts u = true → (given u).Settled →
      Operand.iterable.accepts v = true → (given v).Settled →
      Operand.iterable.accepts w = true → w.elements = u.elements ++ v.elements →
      ((∃ k, mapped w = .ok () k) ↔ (∃ k, mapped u = .ok () k) ∧ ∃ k, mapped v = .ok () k) ∧
      ∀ k l, mapped u = .ok () k → mapped v = .ok () l →
        ∃ i us j vs k', k.stack = caller.stack.push (.list i us) ∧
          l.stack = caller.stack.push (.list j vs) ∧ mapped w = .ok () k' ∧
          k'.stack = caller.stack.push (.list (j + (i - m.nextList))
            (us ++ vs.map (Value.renumbered (.later m.nextList (i - m.nextList))))) := by
  intro ctx own caller given mapped
  have hmapped : ∀ v, Operand.iterable.accepts v = true →
      mapped v = Control.mapList own v.elements caller :=
    fun v hv => operate_map ctx m hv body below
  have hcaller : caller.Coherent := hcoherent
  -- The block and the value are taken off; what is left is a settled machine, and each element in
  -- it holds only lists that have been made.
  have hsettled : ∀ v, (given v).Settled → caller.Settled :=
    fun v h => (Machine.settled_cons (Machine.settled_cons h).2).2
  have hquiet : ∀ v, (given v).Settled →
      ∀ e ∈ v.elements, Eval.Quiet caller.nextList Value.renumbered (own e) := by
    intro v h e he
    obtain ⟨hbody, h⟩ := Machine.settled_cons h
    have holder := (Machine.settled_cons h).1.elements e he
    exact Context.single_quiet maxDepth rounds levels hparse (utf8 "map") (utf8 "map") hbody.block
      fun a ha => List.mem_singleton.mp ha ▸ holder
  refine ⟨fun v hv hgiven => ⟨fun k hk => ?_, fun before after rs k hsplit hk => ?_, fun h => ?_⟩,
    fun u v w hu hgivenu hv hgivenv hw hsplit => ⟨?_, fun k l hk hl => ?_⟩⟩
  · rw [hmapped v hv] at hk
    exact Control.mapList_own hcaller (hsettled v hgiven) (Nat.le_refl _) (hquiet v hgiven) hk
  · have hbefore : ∀ e ∈ before, Eval.Quiet caller.nextList Value.renumbered (own e) :=
      fun e he => hquiet v hgiven e (hsplit ▸ List.mem_append_left after he)
    refine ⟨(Control.mapEach_quiet hbefore).leaves caller rs k hcaller hk, ?_⟩
    -- The first part leaves the caller as it was, but for the numbers given out, so that the second
    -- part begins where it would begin alone.
    rw [hmapped v hv, hsplit, Control.mapList, Control.mapEach_append, bind_assoc, bind_of_ok hk,
      bind_assoc]
    simp only [pure_bind]
  · rw [hmapped v hv]
    simp only [Control.mapList_error_iff]
    exact Control.mapEach_error_iff hcaller (hsettled v hgiven) (Nat.le_refl _)
      (hquiet v hgiven) h
  · rw [hmapped u hu, hmapped v hv, hmapped w hw, hsplit]
    simp only [Control.exists_mapList_ok_iff]
    exact Control.mapEach_append_ok_iff hcaller (hsettled v hgivenv) (Nat.le_refl _)
      (hquiet u hgivenu) (hquiet v hgivenv)
  · rw [hmapped u hu] at hk
    rw [hmapped v hv] at hl
    rw [hmapped w hw, hsplit]
    exact Control.mapList_append hcaller (hsettled v hgivenv) (Nat.le_refl _) (hquiet u hgivenu)
      (hquiet v hgivenv) hk hl

/-- Binds `x` to the element, and makes a new list of it. -/
def listOfBound : Program :=
  [.operator (utf8 ":") .none, .name (utf8 "x") .none, .operator (utf8 ",") .none,
    .group .list [.name (utf8 "x") .none] .none]

/-- Each of the elements 1, 2 and 3 is put in a list of its own. -/
theorem map_independent_three :
    let given := fun v => (start .empty []).withVisible [.block listOfBound, v, .int 7]
    let mapped := fun v =>
      operate .builtin ((Evaluator.builtin parser 5 5).context 5) (utf8 "/") (given v)
    (given (.tuple [.int 1])).Settled ∧ (given (.tuple [.int 2, .int 3])).Settled ∧
    ∃ k l k' i us j vs,
      mapped (.tuple [.int 1]) = .ok () k ∧ k.stack.visible = [.list i us, .int 7] ∧
      mapped (.tuple [.int 2, .int 3]) = .ok () l ∧ l.stack.visible = [.list j vs, .int 7] ∧
      mapped (.tuple [.int 1, .int 2, .int 3]) = .ok () k' ∧
      k'.stack.visible =
        [.list (j + i) (us ++ vs.map (Value.renumbered (.later 0 i))), .int 7] := by
  intro given mapped
  have hsettled : ∀ v : Value, v.Older 0 → (given v).Settled := by
    intro v hv
    have holder : ∀ u ∈ [.int 7, v, .block listOfBound], u.Older Memory.empty.lists := by
      simp only [List.mem_cons, List.not_mem_nil, or_false, forall_eq_or_imp, forall_eq]
      exact ⟨fun _ _ => rfl, hv, fun _ _ => rfl⟩
    exact Machine.settled_start (fun _ _ => rfl) holder
  have hu : (given (.tuple [.int 1])).Settled := hsettled _ fun _ _ => rfl
  have hv : (given (.tuple [.int 2, .int 3])).Settled := hsettled _ fun _ _ => rfl
  obtain ⟨_, k, hk⟩ := Outcome.exists_of_isOk (o := mapped (.tuple [.int 1])) (by decide +kernel)
  obtain ⟨_, l, hl⟩ := Outcome.exists_of_isOk (o := mapped (.tuple [.int 2, .int 3]))
    (by decide +kernel)
  obtain ⟨i, us, j, vs, k', hki, hlj, hk', hstack⟩ :=
    ((map_independent parser 5 5 5 (m := start .empty []) ⟨_, _, rfl, rfl⟩ (parser_older _)
      listOfBound [.int 7]).2 (.tuple [.int 1]) (.tuple [.int 2, .int 3])
      (.tuple [.int 1, .int 2, .int 3]) rfl hu rfl hv rfl rfl).2 k l hk hl
  exact ⟨hu, hv, k, l, k', i, us, j, vs, hk, congrArg Stack.visible hki, hl,
    congrArg Stack.visible hlj, hk', congrArg Stack.visible hstack⟩

end Evaluator

end StackLang
