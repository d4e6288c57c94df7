import BoardPython.Proofs.LexerExtent

/-! The front end is total: a lexer can be run on any text and again after it has stopped, and the
parser on any tokens with an end token among them. Each run comes to an end, inside of what it is
given, with a result or a syntax error. -/
namespace BoardPython

open Token (Kind Of)

namespace Lexer

variable {s next t : Lexer} {b : UInt8} {r : Bytes} {ts : List Token} {n : Nat} {run : Run}

/-- A lexer comes to the outcome `run` in `n` steps. -/
inductive Takes : Lexer → Nat → Run → Prop
  | finish {s : Lexer} (hs : s.rest = []) : Takes s 0 ⟨.ok s.finish.1, s.finish.2⟩
  | fail {s stop : Lexer} {b : UInt8} {r : Bytes} {e : SyntaxError} (hs : s.rest = b :: r)
      (h : s.step b = .fail e stop) : Takes s 1 ⟨.error e, stop⟩
  | more {s next : Lexer} {b : UInt8} {r : Bytes} {ts : List Token} {n : Nat} {run : Run}
      (hs : s.rest = b :: r) (h : s.step b = .more ts next) (hrun : Takes next n run) :
      Takes s (n + 1) (run.prepend ts)

theorem takes_steps (s : Lexer) : ∃ n ≤ s.work, s.Takes n s.steps := by
  induction hw : s.work using Nat.strongRecOn generalizing s with
  | ind w ih =>
    cases hs : s.rest with
    | nil =>
      rw [steps_of_nil hs]
      exact ⟨0, Nat.zero_le _, .finish hs⟩
    | cons b r =>
      rcases steps_of_cons hs with ⟨ts, next, hmore, hsteps⟩ | ⟨e, stop, hfail, hsteps⟩
      · have hlt : next.work < w := hw ▸ step_work hs hmore
        obtain ⟨n, hn, htakes⟩ := ih next.work hlt next rfl
        rw [hsteps]
        exact ⟨n + 1, by omega, .more hs hmore htakes⟩
      · have hle := s.le_work
        rw [hs, List.length_cons] at hle
        rw [hsteps]
        exact ⟨1, by omega, .fail hs hfail⟩

theorem reads_finish (s : Lexer) : s.Reads s.finish.2 := reads_self

theorem Takes.reads (h : s.Takes n run) : s.Reads run.stop := by
  induction h with
  | finish hs => exact reads_finish _
  | fail hs h => exact reads_of_fail hs h
  | more hs h _ ih => exact (reads_of_more hs h).trans ih

theorem Visits.reads (h : Visits s ts t) : s.Reads t := by
  induction h with
  | here s => exact reads_self
  | step hs h _ ih => exact (reads_of_more hs h).trans ih

section Tokens

theorem endFree_nil : EndFree [] := nofun

theorem endFree_token {k : Kind} (hk : k ≠ .eof) (text : Bytes) : EndFree [s.token k text] := by
  intro t ht
  rw [List.mem_singleton.mp ht]
  exact hk

theorem endFree_step (h : s.step b = .more ts next) : EndFree ts := by
  have hwritten : ∀ k ∈ Kind.written, k ≠ .eof := by decide
  cases does_step h with
  | skip | wrap => exact endFree_nil
  | newline => exact endFree_token (by decide) _
  | read h => exact List.forall_mem_singleton.mpr (hwritten _ h.kind)
  | indent => exact endFree_token (by decide) _
  | dedent =>
    intro t ht
    obtain ⟨l, -, rfl⟩ := List.mem_map.mp ht
    exact nofun

theorem finish_eq (s : Lexer) :
    ∃ (body : List Token) (eof : Of .eof), EndFree body ∧ s.finish.1 = body ++ [eof.val] := by
  refine ⟨_, ⟨s.token .eof [], rfl⟩, ?_, rfl⟩
  refine List.forall_mem_append.mpr ⟨?_, ?_⟩
  · split
    · exact endFree_token (by decide) _
    · exact endFree_nil
  · intro t ht
    obtain ⟨l, -, rfl⟩ := List.mem_map.mp ht
    exact nofun

theorem Takes.tokens (h : s.Takes n run) (hresult : run.result = .ok ts) :
    ∃ (body : List Token) (eof : Of .eof), EndFree body ∧ ts = body ++ [eof.val] := by
  induction h generalizing ts with
  | finish hs =>
    obtain ⟨body, eof, hfree, hfinish⟩ := finish_eq _
    exact ⟨body, eof, hfree, (Except.ok.inj hresult).symm.trans hfinish⟩
  | fail hs h => cases hresult
  | more hs h _ ih =>
    rename_i run _
    cases hinner : run.result with
    | error e =>
      rw [Run.prepend, hinner] at hresult
      cases hresult
    | ok us =>
      rw [Run.prepend, hinner] at hresult
      obtain ⟨body, eof, hfree, rfl⟩ := ih hinner
      refine ⟨_ ++ body, eof, List.forall_mem_append.mpr ⟨endFree_step h, hfree⟩, ?_⟩
      exact (Except.ok.inj hresult).symm.trans (List.append_assoc ..).symm

end Tokens

/-- Where a lexer stands after one more run. -/
def resume (s : Lexer) : Lexer := s.run.stop

/-- The next run of a lexer on a text ends and stays inside of the text. If it gives tokens, the last
one and no other is an end token. -/
structure Halts (source : Bytes) (s : Lexer) : Prop where
  ends : ∃ n ≤ 2 * s.rest.length + 1, s.start.Takes n s.run
  inside : ∀ ts t, Visits s.start ts t → (ofBytes source).Reads t
  stops : (ofBytes source).Reads s.run.stop
  tokens : ∀ ts, s.run.result = .ok ts →
    ∃ (body : List Token) (eof : Of .eof), EndFree body ∧ ts = body ++ [eof.val]

theorem halts_of_reads {source : Bytes} (hs : (ofBytes source).Reads s) : s.Halts source := by
  have hstart : (ofBytes source).Reads s.start := hs
  obtain ⟨n, hn, htakes⟩ := takes_steps s.start
  refine ⟨⟨n, hn.trans s.start.work_le, htakes⟩, ?_, hstart.trans htakes.reads, ?_⟩
  · exact fun ts t hvisits => hstart.trans hvisits.reads
  · exact fun ts hresult => htakes.tokens hresult

theorem reads_resume (source : Bytes) (calls : Nat) :
    (ofBytes source).Reads (resume^[calls] (ofBytes source)) := by
  induction calls with
  | zero => exact reads_self
  | succ calls ih =>
    rw [Function.iterate_succ_apply']
    exact (halts_of_reads ih).stops

end Lexer

theorem tokenize_eq_ok {source : Bytes} {ts : List Token} (h : tokenize source = .ok ts) :
    ∃ (body : List Token) (eof : Of .eof), EndFree body ∧ ts = body ++ [eof.val] :=
  (Lexer.halts_of_reads (Lexer.reads_resume source 0)).tokens ts h

theorem exists_first_eof {ts : List Token} (h : ∃ t ∈ ts, t.kind = .eof) :
    ∃ (body : List Token) (eof : Of .eof) (rest : List Token),
      EndFree body ∧ ts = body ++ eof.val :: rest := by
  induction ts with
  | nil =>
    obtain ⟨t, ht, -⟩ := h
    cases ht
  | cons t ts ih =>
    by_cases ht : t.kind = .eof
    · exact ⟨[], ⟨t, ht⟩, ts, nofun, rfl⟩
    · obtain ⟨u, hu, hk⟩ := h
      have hmem : u ∈ ts := (List.mem_cons.mp hu).resolve_left fun heq => ht (heq ▸ hk)
      obtain ⟨body, eof, rest, hfree, rfl⟩ := ih ⟨u, hmem, hk⟩
      exact ⟨t :: body, eof, rest, List.forall_mem_cons.mpr ⟨ht, hfree⟩, rfl⟩

namespace Parser

/-- On tokens with an end token among them, the parser comes to statements or a syntax error, and
also for a single expression; nothing behind the first end token makes a difference. -/
structure HaltsOn (ts : List Token) : Prop where
  run : Settled (run ts).stop
  runExpr : Settled (runExpr ts).stop
  inside : ∀ (body : List Token) (eof : Of .eof) (rest rest' : List Token), EndFree body →
    ts = body ++ eof.val :: rest → Parser.run (body ++ eof.val :: rest') = Parser.run ts ∧
      Parser.runExpr (body ++ eof.val :: rest') = Parser.runExpr ts

theorem haltsOn_of_eof {ts : List Token} (h : ∃ t ∈ ts, t.kind = .eof) : HaltsOn ts := by
  obtain ⟨body, eof, rest, hfree, rfl⟩ := exists_first_eof h
  obtain ⟨outcome, hsettled, hrun⟩ := run_halts hfree eof
  obtain ⟨outcome', hsettled', hrun'⟩ := runExpr_halts hfree eof
  refine ⟨?_, ?_, ?_⟩
  · rw [hrun]
    exact hsettled
  · rw [hrun']
    exact hsettled'
  · intro body' eof' rest' rest'' hfree' heq
    obtain ⟨o, -, ho⟩ := run_halts hfree' eof'
    obtain ⟨o', -, ho'⟩ := runExpr_halts hfree' eof'
    rw [heq]
    exact ⟨(ho rest'').trans (ho rest').symm, (ho' rest'').trans (ho' rest').symm⟩

end Parser

/-- The front end is total. On any bytes, each of any number of runs of one lexer ends inside of the
text, with tokens up to an end token or with a syntax error. On any tokens with an end token, the
parser ends in front of what follows it, with statements or with a syntax error. So parsing a text
always comes to one of the two. -/
theorem frontEnd_total (source : Bytes) :
    (∀ calls : Nat, (Lexer.resume^[calls] (Lexer.ofBytes source)).Halts source) ∧
    (∀ ts : List Token, (∃ t ∈ ts, t.kind = .eof) → Parser.HaltsOn ts) ∧
    Parser.Settled (parseSource source).stop ∧ Parser.Settled (parseExpr source).stop := by
  have hparse : Parser.Settled (parseSource source).stop ∧
      Parser.Settled (parseExpr source).stop := by
    unfold parseSource parseExpr
    cases h : tokenize source with
    | error e => exact ⟨.inr ⟨e, rfl⟩, .inr ⟨e, rfl⟩⟩
    | ok ts =>
      obtain ⟨body, eof, -, rfl⟩ := tokenize_eq_ok h
      have hhalts : Parser.HaltsOn (body ++ [eof.val]) :=
        Parser.haltsOn_of_eof ⟨eof.val, by simp, eof.property⟩
      exact ⟨hhalts.run, hhalts.runExpr⟩
  refine ⟨fun calls => ?_, fun ts hts => Parser.haltsOn_of_eof hts, hparse⟩
  exact Lexer.halts_of_reads (Lexer.reads_resume source calls)

/-- `(`, a byte that is no character, and an unfinished string: the run fails at the byte, and so
does every run after it. Behind an end token, a dedent is never looked at. -/
theorem strayBytes_total :
    (Lexer.resume^[3] (Lexer.ofBytes [0x28, 0xFF, 0x22])).Halts [0x28, 0xFF, 0x22] ∧
    (∃ t ∈ [(⟨.kwPass, [], ⟨1, 1⟩⟩ : Token), ⟨.eof, [], ⟨1, 2⟩⟩, ⟨.dedent, [], ⟨1, 3⟩⟩],
      t.kind = .eof) ∧
    Parser.HaltsOn [⟨.kwPass, [], ⟨1, 1⟩⟩, ⟨.eof, [], ⟨1, 2⟩⟩, ⟨.dedent, [], ⟨1, 3⟩⟩] := by
  have heof : ∃ t ∈ [(⟨.kwPass, [], ⟨1, 1⟩⟩ : Token), ⟨.eof, [], ⟨1, 2⟩⟩, ⟨.dedent, [], ⟨1, 3⟩⟩],
      t.kind = .eof := by decide
  exact ⟨(frontEnd_total [0x28, 0xFF, 0x22]).1 3, heof, (frontEnd_total []).2.1 _ heof⟩

end BoardPython
