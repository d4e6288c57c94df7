import Mathlib
import BoardPython.Watch

/-! What is built while files are watched. The signals of a session fall into rounds, each up to the
expiry that builds the files with a change in it: `builds_follow_changes`. -/
namespace BoardPython.Watch

variable {files watched : List String} {failure : List String → Option String}

/-- A file that is watched has an event that can change its contents. -/
def Touched (watched : List String) (signals : List Signal) (file : String) : Prop :=
  file ∈ watched ∧ ∃ changes, .event file changes ∈ signals ∧
    ∃ c ∈ changes, c ∈ [FileChange.write, .create, .rename]

/-- The timer does not run out after a change. -/
def Unspent (watched : List String) (signals : List Signal) : Prop :=
  ∀ before after, signals = before ++ .expiry :: after → ∀ file, ¬Touched watched before file

/-- What is built when the timer runs out after some signals. -/
structure Rebuilds (watched : List String) (round : List Signal) (built : List String) : Prop where
  unspent : Unspent watched round
  ne_nil : built ≠ []
  nodup : built.Nodup
  mem_iff : ∀ file, file ∈ built ↔ Touched watched round file

section Signals

variable {rest : List Signal} {x : Signal}

theorem isRelevant_iff {c : FileChange} :
    c.isRelevant = true ↔ c ∈ [FileChange.write, .create, .rename] := by
  cases c <;> decide

variable {file : String} {changes : List FileChange}

theorem concerns_iff {w : Watch} :
    w.concerns file changes = true ↔ Touched w.watched [.event file changes] file := by
  simp [concerns, Touched, isRelevant_iff]

theorem touched_concat : Touched watched (rest ++ [x]) file ↔
    Touched watched rest file ∨ Touched watched [x] file := by
  simp only [Touched, List.mem_append, or_and_right, exists_or, and_or_left]

theorem not_touched_expiry (file : String) : ¬Touched watched [.expiry] file := by
  simp [Touched]

theorem not_touched_failure (reason file : String) : ¬Touched watched [.failure reason] file := by
  simp [Touched]

theorem eq_of_touched_event {file' : String} (h : Touched watched [.event file changes] file') :
    file' = file := by
  obtain ⟨-, changes', hevent, -⟩ := h
  cases List.mem_singleton.mp hevent
  rfl

theorem Unspent.concat (h : Unspent watched rest)
    (hx : x = .expiry → ∀ file, ¬Touched watched rest file) : Unspent watched (rest ++ [x]) := by
  intro before after heq
  rcases List.eq_nil_or_concat after with rfl | ⟨after, y, rfl⟩
  · obtain ⟨rfl, hlast⟩ := List.append_inj' heq rfl
    exact hx (List.singleton_inj.mp hlast)
  · rw [List.concat_eq_append, ← List.cons_append, ← List.append_assoc] at heq
    exact h before after (List.append_inj' heq rfl).1

end Signals

/-- Where a session stands after some signals. -/
structure Session.Follows (s : Session) (first watched : List String) (signals : List Signal) :
    Prop where
  files : s.watch.watched = watched
  armed : s.watch.armed = true ↔ s.watch.pending ≠ []
  nodup : s.watch.pending.Nodup
  rounds : ∃ rounds rest built, signals = rounds.flatMap (· ++ [.expiry]) ++ rest ∧
    s.builds = first :: built ∧ List.Forall₂ (Rebuilds watched) rounds built ∧
    Unspent watched rest ∧ ∀ file, file ∈ s.watch.pending ↔ Touched watched rest file

namespace Session.Follows

variable {s : Session} {signals : List Signal} {x : Signal}

/-- A signal that touches no file and does not build anything changes nothing. -/
theorem idle (h : s.Follows files watched signals) (log : String)
    (hx : ∀ file, ¬Touched watched [x] file) (hexpiry : x = .expiry → s.watch.pending = []) :
    Follows { s with log := log } files watched (signals ++ [x]) := by
  obtain ⟨rounds, rest, built, hsignals, hbuilds, hrounds, hrest, hpending⟩ := h.rounds
  refine ⟨h.files, h.armed, h.nodup, rounds, rest ++ [x], built, ?_, hbuilds, hrounds, ?_, ?_⟩
  · rw [hsignals, List.append_assoc]
  · refine hrest.concat fun hx file hfile => ?_
    have hmem := (hpending file).mpr hfile
    rw [hexpiry hx] at hmem
    exact List.not_mem_nil hmem
  · intro file
    rw [touched_concat, or_iff_left (hx file)]
    exact hpending file

theorem event (h : s.Follows files watched signals) {file : String} {changes : List FileChange}
    (htouched : Touched watched [.event file changes] file) {pending : List String}
    (hnodup : pending.Nodup) (hmem : ∀ file', file' ∈ pending ↔
      file' ∈ s.watch.pending ∨ file' = file) :
    Follows { s with watch := { s.watch with pending := pending, armed := true } } files watched
      (signals ++ [Signal.event file changes]) := by
  obtain ⟨rounds, rest, built, hsignals, hbuilds, hrounds, hrest, hpending⟩ := h.rounds
  refine ⟨h.files, ⟨fun _ => List.ne_nil_of_mem ((hmem file).mpr (.inr rfl)), fun _ => rfl⟩, hnodup,
    rounds, rest ++ [Signal.event file changes], built, ?_, hbuilds, hrounds,
    hrest.concat (by simp), fun file' => ?_⟩
  · rw [hsignals, List.append_assoc]
  · rw [hmem, touched_concat, hpending]
    exact or_congr_right ⟨fun heq => heq ▸ htouched, eq_of_touched_event⟩

/-- The timer runs out while there are changes: a round ends. -/
theorem expiry (h : s.Follows files watched signals) (hpending : s.watch.pending ≠ [])
    (log : String) :
    Follows ⟨{ s.watch with pending := [], armed := false },
      s.builds ++ [s.watch.pending.mergeSort fun a b => decide (a ≤ b)], log⟩ files watched
      (signals ++ [Signal.expiry]) := by
  obtain ⟨rounds, rest, built, hsignals, hbuilds, hrounds, hrest, hmem⟩ := h.rounds
  have hperm := List.mergeSort_perm s.watch.pending fun a b => decide (a ≤ b)
  have hbuilt : Rebuilds watched rest (s.watch.pending.mergeSort fun a b => decide (a ≤ b)) :=
    ⟨hrest, fun hnil => hpending (List.perm_nil.mp (hnil ▸ hperm.symm)),
      hperm.nodup_iff.mpr h.nodup, fun file => hperm.mem_iff.trans (hmem file)⟩
  refine ⟨h.files, by simp, List.nodup_nil, rounds ++ [rest], [], _, ?_, ?_,
    List.rel_append hrounds (.cons hbuilt .nil), ?_, ?_⟩
  · rw [hsignals, List.flatMap_append, List.flatMap_singleton, List.append_nil, List.append_assoc]
  · exact congrArg (· ++ _) hbuilds
  · intro before after hnil
    simp at hnil
  · simp [Touched]

theorem step (h : s.Follows files watched signals) (failure : List String → Option String)
    (x : Signal) : (s.step failure x).Follows files watched (signals ++ [x]) := by
  cases x with
  | event file changes =>
    unfold Session.step Watch.step
    dsimp only
    by_cases hconcerns : s.watch.concerns file changes = true
    · have htouched := h.files ▸ concerns_iff.mp hconcerns
      rw [if_pos hconcerns]
      by_cases hfile : file ∈ s.watch.pending
      · rw [if_pos (List.contains_iff_mem.mpr hfile)]
        exact h.event htouched h.nodup fun file' => ⟨.inl, fun hor => hor.elim id (· ▸ hfile)⟩
      · rw [if_neg (mt List.contains_iff_mem.mp hfile)]
        exact h.event htouched (h.nodup.append (List.nodup_singleton file)
          (List.disjoint_singleton.mpr hfile)) (by simp)
    · rw [if_neg hconcerns]
      refine h.idle s.log (fun file' htouched => hconcerns (concerns_iff.mpr ?_)) (by simp)
      rw [h.files]
      exact eq_of_touched_event htouched ▸ htouched
  | failure reason => exact h.idle _ (not_touched_failure reason) (by simp)
  | expiry =>
    unfold Session.step Watch.step
    dsimp only
    by_cases harmed : s.watch.armed = true
    · rw [if_pos harmed]
      exact h.expiry (h.armed.mp harmed) _
    · rw [if_neg harmed]
      exact h.idle s.log not_touched_expiry fun _ => not_not.mp (mt h.armed.mpr harmed)

theorem foldl (h : s.Follows files watched []) (failure : List String → Option String)
    (signals : List Signal) : (signals.foldl (Session.step failure) s).Follows files watched
      signals := by
  induction signals using List.reverseRecOn with
  | nil => exact h
  | append_singleton signals x ih =>
    rw [List.foldl_append]
    exact ih.step failure x

end Session.Follows

theorem follows_start {directory : String} {fault? : Path → Option Files.Fault} {s : Session}
    (h : Session.start directory fault? failure files = .ok s) :
    s.Follows files (files.map fun file => (Path.absolute directory file).text) [] := by
  unfold Session.start at h
  dsimp only at h
  split at h
  · cases h
  · cases h
    refine ⟨List.map_map .., by simp [Session.build, Watch.start], List.nodup_nil, [], [], [], rfl,
      rfl, .nil, ?_, ?_⟩
    · intro before after hnil
      simp at hnil
    · simp [Touched, Session.build, Watch.start]

/-- The timer runs exactly while files are pending. All files are built at first. The signals after
that fall into rounds, each with an expiry behind it, and a rest. What is built after a round is not
empty, has no file twice, and has exactly the watched files that were written, created or renamed in
the round; the same files of the rest are pending. The timer never runs out in between. -/
theorem builds_follow_changes {directory : String} {fault? : Path → Option Files.Fault}
    {s₀ : Session} (h : Session.start directory fault? failure files = .ok s₀)
    (signals : List Signal) :
    let s := signals.foldl (Session.step failure) s₀
    let watched := files.map fun file => (Path.absolute directory file).text
    (s.watch.armed = true ↔ s.watch.pending ≠ []) ∧
    ∃ rounds rest built, signals = rounds.flatMap (· ++ [.expiry]) ++ rest ∧
      s.builds = files :: built ∧ List.Forall₂ (Rebuilds watched) rounds built ∧
      Unspent watched rest ∧ ∀ file, file ∈ s.watch.pending ↔ Touched watched rest file :=
  have hfollows := (follows_start h).foldl failure signals
  ⟨hfollows.armed, hfollows.rounds⟩

/-- A file is made and saved before the timer runs out. -/
def savings : List Signal :=
  [.expiry, .event "/blink.py" [.create], .event "/blink.py" [.chmod, .write],
    .event "/other.py" [.write], .failure "overflow", .expiry]

theorem builds_follow_savings : ∃ s₀, Session.start "/" (fun _ => none) (fun _ => none)
      ["blink.py"] = .ok s₀ ∧
    (savings.foldl (Session.step fun _ => none) s₀).builds = [["blink.py"], ["/blink.py"]] ∧
    ∃ rounds built, List.Forall₂ (Rebuilds ["/blink.py"]) rounds built ∧
      (savings.foldl (Session.step fun _ => none) s₀).builds = ["blink.py"] :: built := by
  have hstart : Session.start "/" (fun _ => none) (fun _ => none) ["blink.py"] = .ok _ := rfl
  obtain ⟨-, rounds, -, built, -, hbuilds, hrounds, -⟩ := builds_follow_changes hstart savings
  have hpath : (Path.absolute "/" "blink.py").text = "/blink.py" := by decide +kernel
  rw [List.map_singleton, hpath] at hrounds
  exact ⟨_, hstart, by decide +kernel, rounds, built, hrounds, hbuilds⟩

end BoardPython.Watch
