import StackLang.Session.Repl
import StackLang.Proofs.Program.Completion

namespace StackLang

/-!
# The lines of a session

Every line that a session reads is accounted for once, and inputs end where their brackets are
closed.

* `Repl.kept` — the lines of an input as they are kept;
* `Repl.Collecting` — lines that wait for more;
* `Repl.Chunk` — lines that are dealt with together: a blank line, a command, or an input;
  `Repl.Chunk.Legal` — what they have to look like;
* `Repl.read_cases` — a line ends a chunk, or goes to those that wait;
* `Repl.Treats`, `Repl.Performs` — what a session makes of a chunk, and of chunks one after the
  other; `Repl.treats_of_act` — that is what is done with the last line of a chunk;
* `Repl.Chunk.Ends`, `Repl.Performs.exists_last` — a session ends with the command to quit only;
* `Repl.chunks_unique` — lines are split into chunks in one way only;
* `Repl.run_partitions` — the lines of a session are those of its chunks, and perhaps of one input
  that is never completed.
-/

namespace Repl

open Program (balance)

/-! ### Chunks of lines -/

/-- The lines of an input as they are kept: the first one without the blanks at its ends. -/
def kept : List Bytes → List Bytes
  | [] => []
  | first :: rest => Blank.trim first :: rest

/-- Whether an input can begin with a line. -/
def Begins (first : Bytes) : Prop :=
  Blank.trim first ≠ [] ∧ Session.isCommand (Blank.trim first) = false

/-- Lines that wait for more: none, or those of an input that has open brackets after each of
    them. -/
structure Collecting (lines : List Bytes) : Prop where
  begins : ∀ first ∈ lines.head?, Begins first
  positive : ∀ front, front ≠ [] → front <+: kept lines → 0 < balance (sourceOf front)

/-- Lines that are dealt with together. -/
inductive Chunk where
  | blank (line : Bytes)
  | command (line : Bytes)
  | input (first : Bytes) (rest : List Bytes)

namespace Chunk

/-- The lines of a chunk. -/
def lines : Chunk → List Bytes
  | blank line => [line]
  | command line => [line]
  | input first rest => first :: rest

/-- What the lines turn out to be. -/
def reading : Chunk → Reading
  | blank _ => .skipped
  | command line => .command (Blank.trim line)
  | input first rest => .source (sourceOf (Blank.trim first :: rest))

/-- An input has open brackets after each of its lines but the last. -/
inductive Legal : Chunk → Prop
  | blank {line : Bytes} (h : Blank.trim line = []) : Legal (blank line)
  | command {line : Bytes} (h : Session.isCommand (Blank.trim line) = true) : Legal (command line)
  | input {first : Bytes} {rest : List Bytes} (hfirst : Begins first)
    (hopen : ∀ front, front ≠ [] → front <+: Blank.trim first :: rest →
      front ≠ Blank.trim first :: rest → 0 < balance (sourceOf front))
    (hclosed : balance (sourceOf (Blank.trim first :: rest)) ≤ 0) : Legal (input first rest)

end Chunk

/-! ### One line -/

/-- No lines wait for more at the start of an input. -/
theorem collecting_nil : Collecting [] where
  begins := nofun
  positive _ hne hfront := absurd (List.prefix_nil.mp hfront) hne

/-- **A line that goes to an input** completes it, or waits with it. -/
theorem extend_cases {lines : List Bytes} {first last : Bytes} (rest : List Bytes)
    (h : Collecting lines) (hfirst : Begins first)
    (hkept : kept (first :: rest) = kept lines ++ [last]) :
    ((Chunk.input first rest).Legal ∧
        extend (kept lines) last = ((Chunk.input first rest).reading, [])) ∨
      (Collecting (first :: rest) ∧
        extend (kept lines) last = (.waiting, kept (first :: rest))) := by
  unfold extend
  rw [← hkept]
  by_cases hpos : 0 < balance (sourceOf (kept (first :: rest)))
  · refine Or.inr ⟨⟨?_, ?_⟩, by simp only [if_pos hpos]⟩
    · rintro _ ⟨⟩
      exact hfirst
    · -- In front of the last line stand lines that were open before.
      intro front hne hfront
      rw [hkept, List.prefix_concat_iff] at hfront
      rcases hfront with rfl | hfront
      · rwa [← hkept]
      · exact h.positive front hne hfront
  · -- The last line closes what was open.
    refine Or.inl ⟨.input hfirst ?_ (Int.not_lt.mp hpos), by simp only [if_neg hpos]; rfl⟩
    intro front hne hfront hshort
    change front <+: kept (first :: rest) at hfront
    rw [hkept, List.prefix_concat_iff] at hfront
    exact h.positive front hne (hfront.resolve_left fun heq => hshort (heq.trans hkept.symm))

/-- **One line** ends a chunk, or waits with the lines before it. -/
theorem read_cases {lines : List Bytes} (h : Collecting lines) (line : Bytes) :
    (∃ c : Chunk, c.Legal ∧ c.lines = lines ++ [line] ∧ read (kept lines) line = (c.reading, [])) ∨
      (Collecting (lines ++ [line]) ∧
        read (kept lines) line = (.waiting, kept (lines ++ [line]))) := by
  cases lines with
  | nil =>
    unfold read
    by_cases hblank : Blank.trim line = []
    · exact Or.inl ⟨.blank line, .blank hblank, rfl, by simp [kept, hblank, Chunk.reading]⟩
    by_cases hcommand : Session.isCommand (Blank.trim line) = true
    · refine Or.inl ⟨.command line, .command hcommand, rfl, ?_⟩
      simp [kept, hblank, hcommand, Chunk.reading]
    · have hread : read (kept []) line = extend (kept []) (Blank.trim line) := by
        simp [read, kept, hblank, hcommand]
      have hfirst : Begins line := ⟨hblank, Bool.eq_false_iff.mpr hcommand⟩
      rcases extend_cases [] h hfirst rfl with ⟨hlegal, heq⟩ | ⟨hcoll, heq⟩
      · exact Or.inl ⟨.input line [], hlegal, rfl, hread.trans heq⟩
      · exact Or.inr ⟨hcoll, hread.trans heq⟩
  | cons first rest =>
    have hfirst := h.begins first rfl
    rcases extend_cases (rest ++ [line]) h hfirst rfl with ⟨hlegal, heq⟩ | ⟨hcoll, heq⟩
    · exact Or.inl ⟨.input first (rest ++ [line]), hlegal, rfl, heq⟩
    · exact Or.inr ⟨hcoll, heq⟩

/-! ### What is made of chunks -/

/-- What a session makes of a chunk, and what it prints.  A blank line leaves it as it was, a command
    is carried out, and an input is evaluated as one text, with the stack printed behind a
    success. -/
inductive Treats (s : Session) : Chunk → Session → Bytes → Prop
  | skipped (line : Bytes) : Treats s (.blank line) s []
  | executed {line out : Bytes} {s' : Session} (h : s.execute (Blank.trim line) = (s', out)) :
    Treats s (.command line) s' out
  | evaluated {first out : Bytes} {rest : List Bytes} {s' : Session}
    (h : s.eval (sourceOf (Blank.trim first :: rest)) = (none, s', out)) :
    Treats s (.input first rest) s' (out ++ s'.printStack)
  | failed {first out : Bytes} {rest : List Bytes} {s' : Session} {halt : Halt}
    (h : s.eval (sourceOf (Blank.trim first :: rest)) = (some halt, s', out)) :
    Treats s (.input first rest) s' out

/-- A session takes in chunks one after the other, never after its end, and prints something. -/
inductive Performs : Session → List Chunk → Session → Bytes → Prop
  | nil (s : Session) : Performs s [] s []
  | cons {s s₁ s₂ : Session} {c : Chunk} {cs : List Chunk} {out more : Bytes}
    (hquit : s.quit = false) (hc : Treats s c s₁ out) (h : Performs s₁ cs s₂ more) :
    Performs s (c :: cs) s₂ (out ++ more)

/-- What is done with the last line of a chunk is what a session makes of the chunk. -/
theorem treats_of_act {s s' : Session} {c : Chunk} {out : Bytes}
    (h : act s c.reading = (s', out)) : Treats s c s' out := by
  cases c with
  | blank line =>
    cases h
    exact .skipped line
  | command line => exact .executed h
  | input first rest =>
    simp only [Chunk.reading, act] at h
    split at h
    · next heval =>
      cases h
      exact .evaluated heval
    · next heval =>
      cases h
      exact .failed heval

/-! ### The end of a session -/

/-- An evaluation does not end the session. -/
theorem quit_eval {s s' : Session} {source out : Bytes} {halt? : Option Halt}
    (h : s.eval source = (halt?, s', out)) : s'.quit = s.quit := by
  simp only [Session.eval] at h
  split at h <;> cases h <;> rfl

/-- Of the commands, only the one to quit ends the session. -/
theorem quit_execute {s s' : Session} {line out : Bytes} (h : s.execute line = (s', out)) :
    s'.quit = true ↔
      s.quit = true ∨ Session.Command.ofName? (Session.words line).1 = some .quit := by
  unfold Session.execute at h
  cases hname : Session.Command.ofName? (Session.words line).1 with
  | none =>
    simp only [hname] at h
    cases h
    simp
  | some c =>
    simp only [hname] at h
    cases c with
    | quit =>
      cases h
      simp
    -- Neither a setting nor the other commands end a session.
    | autoclear =>
      simp only [Session.perform, Session.setAutoclear] at h
      repeat' split at h
      all_goals
        cases h
        simp
    | help | clear | stack | globals | ops =>
      cases h
      simp

/-- The chunk that ends a session. -/
def Chunk.Ends : Chunk → Prop
  | .command line => Session.Command.ofName? (Session.words (Blank.trim line)).1 = some .quit
  | _ => False

/-- A session that goes on ends with the command to quit only. -/
theorem Treats.quit_iff {s s' : Session} {c : Chunk} {out : Bytes} (h : Treats s c s' out)
    (hquit : s.quit = false) : s'.quit = true ↔ c.Ends := by
  cases h with
  | skipped line => simp [hquit, Chunk.Ends]
  | executed h => simp [quit_execute h, hquit, Chunk.Ends]
  | evaluated h => simp [quit_eval h, hquit, Chunk.Ends]
  | failed h => simp [quit_eval h, hquit, Chunk.Ends]

/-- A session that has ended has ended with the last chunk. -/
theorem Performs.exists_last {s s' : Session} {cs : List Chunk} {out : Bytes}
    (h : Performs s cs s' out) (hquit : s.quit = false) (hended : s'.quit = true) :
    ∃ before c, cs = before ++ [c] ∧ c.Ends := by
  induction h with
  | nil s => exact absurd hended (by simp [hquit])
  | @cons s s₁ s₂ c cs out more _ hc h ih =>
    by_cases hends : c.Ends
    · -- Nothing is taken in behind the end.
      have hfirst : s₁.quit = true := (hc.quit_iff hquit).mpr hends
      cases h with
      | nil => exact ⟨[], c, rfl, hends⟩
      | cons hgoes _ _ => exact absurd hfirst (by simp [hgoes])
    · have hgoes : s₁.quit = false := by
        rw [← Bool.not_eq_true, hc.quit_iff hquit]
        exact hends
      obtain ⟨before, d, rfl, hd⟩ := ih hgoes hended
      exact ⟨c :: before, d, rfl, hd⟩

/-! ### All lines -/

/-- **All lines**, behind some that wait for more. -/
theorem run_collected {s : Session} {collected : List Bytes} (lines : List Bytes) (out : Bytes)
    (h : Collecting collected) (hquit : collected ≠ [] → s.quit = false) :
    ∃ chunks dropped unread s' more,
      collected ++ lines = chunks.flatMap Chunk.lines ++ dropped ++ unread ∧
      run ⟨s, kept collected⟩ out lines = (⟨s', kept dropped⟩, out ++ more) ∧
      Performs s chunks s' more ∧ (∀ c ∈ chunks, c.Legal) ∧ Collecting dropped ∧
      (dropped ≠ [] → unread = [] ∧ s'.quit = false) ∧ (unread ≠ [] → s'.quit = true) := by
  -- The induction is on the lines, for all sessions and all lines collected before: a line ends a
  -- chunk or is collected, and the other lines follow.
  induction lines generalizing s collected out with
  | nil =>
    exact ⟨[], collected, [], s, [], by simp, by simp [run], .nil s, nofun, h,
      fun hne => ⟨rfl, hquit hne⟩, fun hne => absurd rfl hne⟩
  | cons line lines ih =>
    -- After the end of a session nothing is read.  There is nothing collected then, as a session
    -- that collects has not ended.
    by_cases hended : s.quit = true
    · have hnil : collected = [] := by
        by_contra hne
        simp [hquit hne] at hended
      subst hnil
      exact ⟨[], [], line :: lines, s, [], rfl, by simp [run, hended], .nil s, nofun,
        collecting_nil, fun hne => absurd rfl hne, fun _ => hended⟩
    rw [Bool.not_eq_true] at hended
    rcases read_cases h line with ⟨c, hlegal, hlines, hread⟩ | ⟨hcoll, hread⟩
    · -- The line ends a chunk, and collecting starts anew.
      obtain ⟨⟨s₁, out₁⟩, hact⟩ : ∃ r, act s c.reading = r := ⟨_, rfl⟩
      have hfeed : feed ⟨s, kept collected⟩ line = (⟨s₁, []⟩, out₁) := by
        simp only [feed, hread, hact]
      obtain ⟨chunks, dropped, unread, s', more, hsplit, hrun, hperforms, hall, hrest⟩ :=
        ih (s := s₁) (out ++ out₁) collecting_nil (fun hne => absurd rfl hne)
      refine ⟨c :: chunks, dropped, unread, s', out₁ ++ more, ?_, ?_,
        .cons hended (treats_of_act hact) hperforms, List.forall_mem_cons.mpr ⟨hlegal, hall⟩, hrest⟩
      · rw [List.append_cons, ← hlines, List.flatMap_cons, List.append_assoc, List.append_assoc,
          ← List.append_assoc _ dropped, ← hsplit, List.nil_append]
      · rw [← List.append_assoc, ← hrun]
        simp only [run, hended, hfeed, Bool.false_eq_true, if_false]
        rfl
    · -- The line is collected, and the session is as it was.
      have hfeed : feed ⟨s, kept collected⟩ line = (⟨s, kept (collected ++ [line])⟩, []) := by
        simp only [feed, hread, act]
      obtain ⟨chunks, dropped, unread, s', more, hsplit, hrun, hrest⟩ :=
        ih out hcoll (fun _ => hended)
      refine ⟨chunks, dropped, unread, s', more, ?_, ?_, hrest⟩
      · rw [List.append_cons, hsplit]
      · rw [← hrun]
        simp only [run, hended, hfeed, Bool.false_eq_true, if_false, List.append_nil]

/-! ### The only way to account for lines -/

namespace Chunk

variable {c d : Chunk} {lines more : List Bytes}

/-- A chunk that is a part of lines which wait for more would have been completed before. -/
theorem Legal.not_collecting (hc : c.Legal) : ¬ Collecting (c.lines ++ lines) := by
  intro h
  cases hc with
  | blank hblank => exact (h.begins _ rfl).1 hblank
  | command hcommand => exact Bool.false_ne_true ((h.begins _ rfl).2.symm.trans hcommand)
  | @input first rest _ _ hclosed =>
    have hpos := h.positive (Blank.trim first :: rest) (by simp) (List.prefix_append _ lines)
    omega

/-- Lines begin with one chunk only. -/
theorem Legal.unique (hc : c.Legal) (hd : d.Legal) (h : c.lines ++ lines = d.lines ++ more) :
    c = d := by
  have hhead := congrArg List.head? h
  cases hc with
  | blank hblank =>
    cases hd with
    | blank _ =>
      cases hhead
      rfl
    | command hcommand =>
      cases hhead
      simp [hblank, Session.isCommand] at hcommand
    | input hfirst _ _ =>
      cases hhead
      exact absurd hblank hfirst.1
  | command hcommand =>
    cases hd with
    | blank hblank =>
      cases hhead
      simp [hblank, Session.isCommand] at hcommand
    | command _ =>
      cases hhead
      rfl
    | input hfirst _ _ =>
      cases hhead
      simp [hfirst.2] at hcommand
  | @input first rest hfirst hopen hclosed =>
    cases hd with
    | blank hblank =>
      cases hhead
      exact absurd hblank hfirst.1
    | command hcommand =>
      cases hhead
      simp [hfirst.2] at hcommand
    | @input first' rest' _ hopen' hclosed' =>
      cases hhead
      -- The shorter input would have open brackets at its end.
      have happend : rest ++ lines = rest' ++ more := List.tail_eq_of_cons_eq h
      suffices hrest : rest = rest' by rw [hrest]
      rcases List.prefix_or_prefix_of_prefix (List.prefix_append rest lines)
        (happend ▸ List.prefix_append rest' more) with hle | hle
      · by_contra hne
        have := hopen' (Blank.trim first :: rest) (by simp) ((List.prefix_cons_inj _).mpr hle)
          (by simpa using hne)
        omega
      · by_contra hne
        have := hopen (Blank.trim first :: rest') (by simp) ((List.prefix_cons_inj _).mpr hle)
          (by simpa using Ne.symm hne)
        omega

end Chunk

/-- **There is only one way** to split lines into chunks and an input that is not completed. -/
theorem chunks_unique {cs ds : List Chunk} {dropped dropped' : List Bytes}
    (hcs : ∀ c ∈ cs, c.Legal) (hds : ∀ d ∈ ds, d.Legal) (hdropped : Collecting dropped)
    (hdropped' : Collecting dropped')
    (h : cs.flatMap Chunk.lines ++ dropped = ds.flatMap Chunk.lines ++ dropped') :
    cs = ds ∧ dropped = dropped' := by
  induction cs generalizing ds with
  | nil =>
    cases ds with
    | nil => exact ⟨rfl, h⟩
    | cons d ds =>
      rw [List.flatMap_nil, List.nil_append, List.flatMap_cons, List.append_assoc] at h
      exact absurd (h ▸ hdropped) (hds d List.mem_cons_self).not_collecting
  | cons c cs ih =>
    rw [List.flatMap_cons, List.append_assoc] at h
    cases ds with
    | nil =>
      rw [List.flatMap_nil, List.nil_append] at h
      exact absurd (h ▸ hdropped') (hcs c List.mem_cons_self).not_collecting
    | cons d ds =>
      rw [List.flatMap_cons, List.append_assoc] at h
      -- The first chunks are the same, as none of two legal chunks goes on behind the other.
      obtain rfl := (hcs c List.mem_cons_self).unique (hds d List.mem_cons_self) h
      obtain ⟨rfl, rfl⟩ := ih (fun c hc => hcs c (List.mem_cons_of_mem _ hc))
        (fun d hd => hds d (List.mem_cons_of_mem _ hd)) (List.append_cancel_left h)
      exact ⟨rfl, rfl⟩

/-! ### Sources -/

/-- A text that ends inside a group has more opening than closing brackets. -/
theorem balance_pos_of_incomplete {text bracket : Bytes} {f : Failure}
    (h : Program.parse text = .error f) (hf : f.openBracket? = some bracket) :
    0 < balance text := by
  obtain ⟨o, outer, done, hreached, -⟩ := Program.reached_of_incomplete h hf
  have hbalance : balance text = (o :: outer).length := hreached.opened.depth_eq
  rw [hbalance, List.length_cons]
  omega

/-- The text of an input does not end inside a group. -/
theorem Chunk.Legal.complete {first : Bytes} {rest : List Bytes} {f : Failure}
    (h : (Chunk.input first rest).Legal)
    (hparse : Program.parse (sourceOf (Blank.trim first :: rest)) = .error f) :
    f.openBracket? = none := by
  cases h with
  | input _ _ hclosed =>
    rw [Option.eq_none_iff_forall_ne_some]
    intro bracket hbracket
    exact absurd (balance_pos_of_incomplete hparse hbracket) (Int.not_lt.mpr hclosed)

/-- **No line is lost or repeated.**  The lines up to the end of the input or of the session are, in
    order, those of chunks and of an input that waits for more at the end.  Each chunk is a blank
    line that is skipped, a command that is carried out, or an input that is evaluated as one text:
    it has open brackets after each of its lines but the last, and its text never ends inside a
    group.  Lines are left unread, and nothing waits for more, only behind the command to quit.
    There is only one way to split the lines like this. -/
theorem run_partitions (s : Session) (out : Bytes) (lines : List Bytes) :
    ∃ chunks dropped unread s' more,
      lines = chunks.flatMap Chunk.lines ++ dropped ++ unread ∧
      run ⟨s, []⟩ out lines = (⟨s', kept dropped⟩, out ++ more) ∧
      Performs s chunks s' more ∧ (∀ c ∈ chunks, c.Legal) ∧ Collecting dropped ∧
      (dropped ≠ [] → unread = [] ∧ s'.quit = false) ∧ (unread ≠ [] → s'.quit = true) ∧
      (s.quit = false → s'.quit = true → ∃ before c, chunks = before ++ [c] ∧ c.Ends) ∧
      (∀ first rest, .input first rest ∈ chunks → ∀ f,
        Program.parse (sourceOf (Blank.trim first :: rest)) = .error f → f.openBracket? = none) ∧
      ∀ chunks' dropped', (∀ c ∈ chunks', c.Legal) → Collecting dropped' →
        chunks'.flatMap Chunk.lines ++ dropped' = chunks.flatMap Chunk.lines ++ dropped →
        chunks' = chunks ∧ dropped' = dropped := by
  obtain ⟨chunks, dropped, unread, s', more, hsplit, hrun, hperforms, hlegal, hdropped, hrest,
    hunread⟩ := run_collected (s := s) lines out collecting_nil (fun hne => absurd rfl hne)
  refine ⟨chunks, dropped, unread, s', more, hsplit, hrun, hperforms, hlegal, hdropped, hrest,
    hunread, hperforms.exists_last, ?_, ?_⟩
  · intro first rest hmem f hparse
    exact (hlegal _ hmem).complete hparse
  · intro chunks' dropped' hlegal' hdropped' h
    exact chunks_unique hlegal' hlegal hdropped' hdropped h

end Repl

end StackLang
