import Mathlib
import BoardPython.Job
import BoardPython.Proofs.Calculations

/-! Which files a job leaves behind, whatever goes wrong on the way: `run_leaves`. -/
namespace BoardPython

namespace Path

theorem pieces_of_notMem {cs : List Char} (h : '/' ∉ cs) : pieces cs = [cs] := by
  induction cs with
  | nil => rfl
  | cons c cs ih =>
    obtain ⟨hc, hcs⟩ := not_or.mp (mt List.mem_cons.mpr h)
    rw [pieces, if_neg (Ne.symm hc), ih hcs]

/-- What is written behind a name goes to its last piece. -/
theorem exists_pieces_append (cs : List Char) :
    ∃ init last, ∀ e, '/' ∉ e → pieces (cs ++ e) = init ++ [last ++ e] := by
  induction cs with
  | nil => exact ⟨[], [], fun e => pieces_of_notMem⟩
  | cons c cs ih =>
    obtain ⟨init, last, h⟩ := ih
    by_cases hc : c = '/'
    · refine ⟨[] :: init, last, fun e he => ?_⟩
      rw [List.cons_append, pieces, if_pos hc, h e he, List.cons_append]
    · cases init with
      | nil =>
        refine ⟨[], c :: last, fun e he => ?_⟩
        rw [List.cons_append, pieces, if_neg hc, h e he]
        rfl
      | cons p ps =>
        refine ⟨(c :: p) :: ps, last, fun e he => ?_⟩
        rw [List.cons_append, pieces, if_neg hc, h e he]
        rfl

end Path

/-- What is made of a source file. -/
inductive Artifact where
  | code
  | object
  | image
  deriving DecidableEq

namespace Artifact

def ending : Artifact → String
  | code => ".ll"
  | object => ".o"
  | image => ".hex"

def name (a : Artifact) (file : String) : String := file ++ a.ending

variable {a b : Artifact} {xs ys : List Char}

theorem append_ending_inj (h : xs ++ a.ending.toList = ys ++ b.ending.toList) :
    a = b ∧ xs = ys := by
  have hlast := congrArg List.getLast? h
  cases a <;> cases b
  case code.code | object.object | image.image => exact ⟨rfl, List.append_cancel_right h⟩
  all_goals simp [ending] at hlast

theorem name_inj {file other : String} (h : a.name file = b.name other) :
    a = b ∧ file = other := by
  have hlist := congrArg String.toList h
  rw [name, name, String.toList_append, String.toList_append] at hlist
  obtain ⟨ha, hfile⟩ := append_ending_inj hlist
  exact ⟨ha, String.toList_injective hfile⟩

/-- An artifact has a name of its own in its directory. -/
theorem enter_append_ending (d : Path) :
    d.enter (xs ++ a.ending.toList) = ⟨d.rooted, d.parts ++ [xs ++ a.ending.toList]⟩ := by
  have hplain (piece : List Char) (hpiece : piece ∈ [[], Path.here, Path.above]) :
      xs ++ a.ending.toList ≠ piece := fun h => by
    have hlast := congrArg List.getLast? h
    cases a <;> simp [ending, Path.here, Path.above] at hpiece hlast <;>
      rcases hpiece with rfl | rfl | rfl <;> simp at hlast
  rw [Path.enter, if_neg (not_or.mpr ⟨hplain _ (by simp), hplain _ (by simp)⟩),
    if_neg (hplain _ (by simp))]

end Artifact

namespace Files

abbrev Has (fs : Files) (name : String) : Prop := (fs.find name).isOk

/-- A source file that can be read and of which nothing has been made. -/
structure Ready (fs : Files) (file : String) : Prop where
  readable : ∃ contents, fs.read file = .ok contents
  absent : ∀ a : Artifact, ¬fs.Has (a.name file)

/-- Files that a job can be done for. -/
structure Prepared (fs : Files) (files : List String) : Prop where
  ready : ∀ file ∈ files, fs.Ready file
  distinct : (files.map fs.locate).Nodup

variable {fs fs' : Files} {name : String} {p q : Path}

theorem enter_eq_ok_iff {piece : List Char} : fs.enter p piece = .ok q ↔
    fs.isDirectory p = true ∧ (String.ofList piece).utf8ByteSize ≤ pieceLimit ∧
      p.enter piece = q := by
  unfold enter
  split_ifs <;> simp [*]

theorem foldlM_concat_eq_ok_iff {init : List (List Char)} {last : List Char} :
    (init ++ [last]).foldlM fs.enter p = .ok q ↔
      ∃ d, init.foldlM fs.enter p = .ok d ∧ fs.enter d last = .ok q := by
  simp only [List.foldlM_append, List.foldlM_cons, List.foldlM_nil, bind_pure]
  cases init.foldlM fs.enter p <;> simp [bind, Except.bind]

theorem locate_eq_ok_iff : fs.locate name = .ok p ↔
    Char.ofNat 0 ∉ name.toList ∧ name ≠ "" ∧ name.utf8ByteSize ≤ nameLimit ∧
      (Path.pieces name.toList).foldlM fs.enter (Path.origin name) = .ok p := by
  unfold locate
  split_ifs <;> simp_all

/-- Where a name leads to is up to the directories. -/
theorem locate_congr (h : fs'.directories = fs.directories) :
    fs'.locate name = .ok p ↔ fs.locate name = .ok p := by
  have hfold (pieces : List (List Char)) (start : Path) :
      pieces.foldlM fs'.enter start = .ok p ↔ pieces.foldlM fs.enter start = .ok p := by
    induction pieces using List.reverseRecOn generalizing p with
    | nil => rfl
    | append_singleton pieces piece ih =>
      simp only [foldlM_concat_eq_ok_iff, enter_eq_ok_iff, isDirectory, h, ih]
  rw [locate_eq_ok_iff, locate_eq_ok_iff, hfold]

theorem has_iff : fs.Has name ↔
    ∃ p, fs.locate name = .ok p ∧ ((fs.get? p).isSome ∨ fs.isDirectory p = true) := by
  unfold Has find
  cases fs.locate name with
  | error fault => simp [Except.isOk, Except.toBool]
  | ok path =>
    by_cases h : (fs.get? path).isSome ∨ fs.isDirectory path = true <;>
      simp [h, Except.isOk, Except.toBool]

theorem read_eq_ok_iff {contents : Bytes} : fs.read name = .ok contents ↔
    ∃ p, fs.locate name = .ok p ∧ fs.get? p = some contents := by
  unfold read
  cases fs.locate name with
  | error fault => simp
  | ok path => cases h : fs.get? path <;> simp [h]

/-- An artifact lies beside its file. -/
theorem locate_artifact {file : String} {a : Artifact} (hq : fs.locate file = .ok q)
    (hp : fs.locate (a.name file) = .ok p) : ∃ (d : Path) (last : List Char),
      q = d.enter last ∧ p = ⟨d.rooted, d.parts ++ [last ++ a.ending.toList]⟩ := by
  obtain ⟨init, last, hpieces⟩ := Path.exists_pieces_append file.toList
  obtain ⟨-, hne, -, hq⟩ := locate_eq_ok_iff.mp hq
  obtain ⟨-, -, -, hp⟩ := locate_eq_ok_iff.mp hp
  have horigin : Path.origin (a.name file) = Path.origin file := by
    rw [Path.origin, Path.origin, Artifact.name, String.toList_append,
      List.head?_append_of_ne_nil _ (mt String.toList_eq_nil_iff.mp hne)]
  have hending : '/' ∉ a.ending.toList := by cases a <;> decide
  rw [horigin, Artifact.name, String.toList_append, hpieces _ hending] at hp
  rw [← List.append_nil file.toList, hpieces [] List.not_mem_nil, List.append_nil] at hq
  obtain ⟨d, hd, hlast⟩ := foldlM_concat_eq_ok_iff.mp hq
  obtain ⟨d', hd', hextended⟩ := foldlM_concat_eq_ok_iff.mp hp
  cases hd.symm.trans hd'
  refine ⟨d, last, (enter_eq_ok_iff.mp hlast).2.2.symm, ?_⟩
  rw [← Artifact.enter_append_ending, (enter_eq_ok_iff.mp hextended).2.2]

/-- Artifacts of files at two places do not meet. -/
theorem locate_artifact_inj {file other : String} {a b : Artifact} {q' : Path}
    (hq : fs.locate file = .ok q) (hq' : fs.locate other = .ok q')
    (ha : fs.locate (a.name file) = .ok p) (hb : fs.locate (b.name other) = .ok p) :
    a = b ∧ q = q' := by
  obtain ⟨⟨rooted, parts⟩, last, rfl, rfl⟩ := locate_artifact hq ha
  obtain ⟨⟨rooted', parts'⟩, last', rfl, heq⟩ := locate_artifact hq' hb
  obtain ⟨rfl, hparts⟩ := Path.mk.inj heq
  obtain ⟨rfl, htail⟩ := List.append_inj' hparts rfl
  obtain ⟨hab, rfl⟩ := Artifact.append_ending_inj (List.singleton_inj.mp htail)
  exact ⟨hab, rfl⟩

theorem get?_insert (contents : Bytes) :
    (fs.insert p contents).get? q = if p = q then some contents else fs.get? q := by
  have hmap (entries : List (Path × Bytes)) :
      (entries.map fun e => if e.1 = p then (p, contents) else e).lookup q =
        if p = q then (entries.lookup p).map fun _ => contents else entries.lookup q := by
    induction entries with
    | nil => simp
    | cons e entries ih => grind
  unfold insert
  cases hp : fs.get? p with
  | some old =>
    unfold get? at hp ⊢
    simp [hmap, hp]
  | none =>
    unfold get? at hp ⊢
    by_cases hq : p = q
    · simp [← hq, hp, List.lookup_append]
    · simp [hq, List.lookup_append, List.lookup_cons, beq_false_of_ne (Ne.symm hq)]

theorem get?_erase : (fs.erase name).get? q =
    if fs.locate name = .ok q then none else fs.get? q := by
  have hfilter (entries : List (Path × Bytes)) (p : Path) :
      (entries.filter fun e => !decide (e.1 = p)).lookup q =
        if p = q then none else entries.lookup q := by
    induction entries with
    | nil => simp
    | cons e entries ih => grind
  cases h : fs.locate name <;> simp [erase, h, get?, hfilter]

end Files

namespace Work

/-- Some work ends with a result and a workspace, or with a fault and a workspace. -/
def Ends {ε α : Type} (x : Work ε α) (w : Workspace) (Q : α → Workspace → Prop)
    (E : Workspace → Prop) : Prop :=
  match x w with
  | .ok a w => Q a w
  | .error _ w => E w

variable {ε δ α β : Type} {x : Work ε α} {w : Workspace} {Q Q' : α → Workspace → Prop}
  {E E' : Workspace → Prop}

theorem Ends.bind {f : α → Work ε β} {R : β → Workspace → Prop} (hx : Ends x w Q E')
    (hE : ∀ w, E' w → E w) (hf : ∀ a w, Q a w → Ends (f a) w R E) : Ends (x >>= f) w R E := by
  unfold Ends at hx ⊢
  cases h : x w with
  | ok a w' =>
    rw [h] at hx
    rw [Lowering.bind_of_ok h]
    exact hf a w' hx
  | error e w' =>
    rw [h] at hx
    rw [Lowering.bind_of_error h]
    exact hE w' hx

theorem Ends.mono (hx : Ends x w Q' E') (hQ : ∀ a w, Q' a w → Q a w) (hE : ∀ w, E' w → E w) :
    Ends x w Q E := by
  unfold Ends at *
  cases h : x w <;> simp_all

theorem Ends.mapError {f : ε → δ} (hx : Ends x w Q E) : Ends (x.mapError f) w Q E := by
  unfold Ends Work.mapError at *
  cases h : x w <;> simpa [h] using hx

theorem Ends.afterwards {f : Workspace → Workspace} (hx : Ends x w Q' E')
    (hQ : ∀ a w, Q' a w → Q a (f w)) (hE : ∀ w, E' w → E (f w)) : Ends (x.afterwards f) w Q E := by
  unfold Ends Work.afterwards at *
  cases h : x w <;> simp_all

theorem Ends.afterError {f : Workspace → Workspace} (hx : Ends x w Q E')
    (hE : ∀ w, E' w → E (f w)) : Ends (x.afterError f) w Q E := by
  unfold Ends Work.afterError at *
  cases h : x w <;> simp_all

end Work

namespace Tools

/-- A call has been made and has succeeded. -/
def Done (tools : Tools) (calls : List Call) (call : Call) : Prop :=
  ∃ before, before ++ [call] <+: calls ∧ (tools.reply before call).failure = none

theorem done_concat {tools : Tools} {calls : List Call} {c call : Call} :
    tools.Done (calls ++ [c]) call ↔
      tools.Done calls call ∨ c = call ∧ (tools.reply calls c).failure = none := by
  simp only [Done, List.prefix_concat_iff, or_and_right, exists_or]
  rw [or_comm]
  refine or_congr_right ⟨?_, ?_⟩
  · rintro ⟨before, heq, hreply⟩
    obtain ⟨rfl, hcall⟩ := List.append_inj' heq rfl
    cases hcall
    exact ⟨rfl, hreply⟩
  · rintro ⟨rfl, hreply⟩
    exact ⟨calls, rfl, hreply⟩

end Tools

/-- What the programs are called for. -/
inductive Stage where
  | compile
  | link
  | flash
  deriving DecidableEq

def Stage.product? : Stage → Option Artifact
  | compile => some .object
  | link => some .image
  | flash => none

namespace Job

def call (job : Job) (file : String) : Stage → Call
  | .compile =>
    ⟨job.toolchain.llc, ["-march=avr", "-mcpu=" ++ job.toolchain.board.cpu, "-filetype=obj",
      if job.toolchain.optimize then "-O2" else "-O0", Artifact.code.name file, "-o",
      Artifact.object.name file]⟩
  | .link =>
    ⟨job.toolchain.builder, [job.toolchain.coreDirectory, job.toolchain.board.name,
      Artifact.object.name file, Artifact.image.name file]⟩
  | .flash =>
    ⟨job.toolchain.flasher, [job.toolchain.coreDirectory, job.toolchain.board.cpu,
      Artifact.image.name file, job.device]⟩

/-- Each program makes its file if it succeeds, which it only can if there is a place for it, and
no other file. -/
structure Faithful (job : Job) (tools : Tools) (fs : Files) (files : List String) : Prop where
  version : ∀ calls, (tools.reply calls ⟨job.toolchain.llc, ["--version"]⟩).creates = none
  creates : ∀ calls, ∀ file ∈ files, ∀ stage, (tools.reply calls (job.call file stage)).creates =
    if (tools.reply calls (job.call file stage)).failure = none then
      stage.product?.map (·.name file) else none
  place : ∀ calls, ∀ file ∈ files, ∀ stage, ∀ a ∈ stage.product?,
    (tools.reply calls (job.call file stage)).failure = none →
      ∃ p, fs.locate (a.name file) = .ok p

/-- A source file is accepted. -/
def Compiles (job : Job) (fs : Files) (file : String) : Prop :=
  ∃ source c m, fs.read file = .ok source ∧ job.compilation file source = .ok c ∧
    c.module? = some m

/-- The code of a file can be made and written. -/
def Writes (job : Job) (fs : Files) (file : String) : Prop :=
  job.Compiles fs file ∧ ∃ p, fs.locate (Artifact.code.name file) = .ok p

theorem call_inj {job : Job} {file other : String} {stage stage' : Stage}
    (h : job.call file stage = job.call other stage') : file = other ∧ stage = stage' := by
  have hname {a b : Artifact} (h : a.name file = b.name other) (hab : a ≠ b) : False :=
    hab (Artifact.name_inj h).1
  cases stage <;> cases stage' <;> simp only [call, Call.mk.injEq, List.cons.injEq] at h
  case compile.compile => exact ⟨(Artifact.name_inj h.2.2.2.2.2.1).2, rfl⟩
  case link.link | flash.flash => exact ⟨(Artifact.name_inj h.2.2.2.1).2, rfl⟩
  case link.flash | flash.link => exact (hname h.2.2.2.1 (by decide)).elim
  all_goals simp at h

/-- What is there of a file in the end, after what has been done for it. -/
structure Leaves (job : Job) (fs : Files) (file : String) (there : Artifact → Prop)
    (done : Stage → Prop) : Prop where
  object : ¬there .object
  code : there .code ↔ job.Writes fs file ∧ (job.command = .emit ∨ job.keepCode = true)
  image : there .image ↔ done .link ∧ ¬done .flash

theorem Leaves.congr {job : Job} {fs : Files} {file : String} {there there' : Artifact → Prop}
    {done done' : Stage → Prop} (h : job.Leaves fs file there done)
    (hthere : ∀ a, there' a ↔ there a) (hdone : ∀ stage, done' stage ↔ done stage) :
    job.Leaves fs file there' done' := by
  constructor <;> simp only [hthere, hdone, h.object, h.code, h.image, not_false_iff]

end Job

theorem dropEnding_append (file ending : String) : dropEnding (file ++ ending) ending = file := by
  unfold dropEnding
  rw [if_pos (by simp [List.isSuffixOf_iff_suffix, List.suffix_append])]
  simp

/-- What can be said of a file while a job is done. -/
inductive Fact where
  | there (file : String) (a : Artifact)
  | done (file : String) (stage : Stage)
  deriving DecidableEq

def Fact.file : Fact → String
  | there file _ => file
  | done file _ => file

/-- A job for prepared files, with programs that make what they are called for. -/
structure Setup where
  job : Job
  tools : Tools
  before : Files
  files : List String
  prepared : before.Prepared files
  faithful : job.Faithful tools before files

namespace Setup

open Function (update)

def Holds (s : Setup) (w : Workspace) : Fact → Prop
  | .there file a => ∃ p, s.before.locate (a.name file) = .ok p ∧ (w.files.get? p).isSome
  | .done file stage => s.tools.Done w.calls (s.job.call file stage)

/-- What has become of the files, with the facts that hold. -/
structure Records (s : Setup) (facts : Fact → Prop) (w : Workspace) : Prop where
  directories : w.files.directories = s.before.directories
  others : ∀ p, (∀ file ∈ s.files, ∀ a : Artifact, s.before.locate (a.name file) ≠ .ok p) →
    w.files.get? p = s.before.get? p
  holds : ∀ f : Fact, f.file ∈ s.files → (s.Holds w f ↔ facts f)

variable {s : Setup} {facts facts' : Fact → Prop} {w w' : Workspace} {file other : String}

theorem vacant (hfile : file ∈ s.files) {a : Artifact} {p : Path}
    (hp : s.before.locate (a.name file) = .ok p) :
    s.before.get? p = none ∧ s.before.isDirectory p = false := by
  have habsent := (s.prepared.ready file hfile).absent a
  rw [Files.has_iff] at habsent
  push Not at habsent
  simpa using habsent p hp

/-- No two artifacts have one place. -/
theorem artifact_inj (hfile : file ∈ s.files) (hother : other ∈ s.files) {a b : Artifact}
    {p : Path} (ha : s.before.locate (a.name file) = .ok p)
    (hb : s.before.locate (b.name other) = .ok p) : Fact.there file a = .there other b := by
  obtain ⟨_, hread⟩ := (s.prepared.ready file hfile).readable
  obtain ⟨_, hread'⟩ := (s.prepared.ready other hother).readable
  obtain ⟨q, hq, -⟩ := Files.read_eq_ok_iff.mp hread
  obtain ⟨q', hq', -⟩ := Files.read_eq_ok_iff.mp hread'
  obtain ⟨rfl, rfl⟩ := Files.locate_artifact_inj hq hq' ha hb
  rw [List.inj_on_of_nodup_map s.prepared.distinct hfile hother (hq.trans hq'.symm)]

namespace Records

variable (hr : s.Records facts w) (hfile : file ∈ s.files)

include hr

theorem congr (hfiles : w'.files = w.files) (hcalls : w'.calls = w.calls) :
    s.Records facts w' := by
  refine ⟨hfiles ▸ hr.directories, hfiles ▸ hr.others, fun f hf => ?_⟩
  rw [← hr.holds f hf]
  cases f <;> simp only [Holds, hfiles, hcalls]

theorem called (file : String) (stage : Stage) : s.Records
    (if (s.tools.reply w.calls (s.job.call file stage)).failure = none then
      update facts (.done file stage) True else facts)
    { w with calls := w.calls ++ [s.job.call file stage] } := by
  refine ⟨hr.directories, hr.others, fun f hf => ?_⟩
  have hold := hr.holds f hf
  have hcall (other : String) (stage' : Stage) : s.job.call file stage = s.job.call other stage' ↔
      Fact.done other stage' = .done file stage :=
    ⟨fun h => by rw [(Job.call_inj h).1, (Job.call_inj h).2], fun h => by cases h; rfl⟩
  cases f with
  | there => split_ifs <;> simpa [Holds] using hold
  | done other stage' =>
    simp only [Holds, Tools.done_concat, hcall] at hold ⊢
    by_cases heq : Fact.done other stage' = .done file stage <;> split_ifs <;> simp_all

include hfile

/-- A file is put at the place of an artifact or taken from there. -/
theorem change {a : Artifact} {contents? : Option Bytes} {fs : Files}
    (hdirectories : fs.directories = w.files.directories)
    (hget : ∀ p, fs.get? p =
      if s.before.locate (a.name file) = .ok p then contents? else w.files.get? p)
    (hplace : contents?.isSome → ∃ p, s.before.locate (a.name file) = .ok p) :
    s.Records (update facts (.there file a) contents?.isSome) { w with files := fs } := by
  refine ⟨hdirectories.trans hr.directories, fun p hp => ?_, fun f hf => ?_⟩
  · rw [hget, if_neg (hp file hfile a)]
    exact hr.others p hp
  have hold := hr.holds f hf
  cases f with
  | done other stage => simpa [Holds] using hold
  | there other b =>
    by_cases heq : Fact.there other b = .there file a
    · cases heq
      simp only [Holds, hget, Function.update_self]
      grind
    · have hapart (p : Path) (hp : s.before.locate (b.name other) = .ok p) :
          s.before.locate (a.name file) ≠ .ok p := fun hpa => heq (artifact_inj hf hfile hp hpa)
      rw [Function.update_of_ne heq, ← hold]
      simp only [Holds, hget]
      grind

theorem erase (a : Artifact) :
    s.Records (update facts (.there file a) False) (w.erase (a.name file)) := by
  have hget (p : Path) : (w.files.erase (a.name file)).get? p =
      if w.files.locate (a.name file) = .ok p then none else w.files.get? p := Files.get?_erase
  simp only [Files.locate_congr hr.directories] at hget
  have hdirectories : (w.files.erase (a.name file)).directories = w.files.directories := by
    unfold Files.erase
    split <;> rfl
  simpa [Workspace.erase] using hr.change hfile hdirectories hget (by simp)

theorem write {a : Artifact} {p : Path} (hp : s.before.locate (a.name file) = .ok p)
    (contents : Bytes) : ∃ fs, w.files.write (a.name file) contents = .ok fs ∧
      s.Records (update facts (.there file a) True) { w with files := fs } := by
  have hdirectory : w.files.isDirectory p = false := by
    rw [← (vacant hfile hp).2, Files.isDirectory, hr.directories, Files.isDirectory]
  refine ⟨w.files.insert p contents, ?_, ?_⟩
  · rw [Files.write, (Files.locate_congr hr.directories).mpr hp]
    simp [hdirectory]
  · have hdirectories : (w.files.insert p contents).directories = w.files.directories := by
      unfold Files.insert
      split <;> rfl
    have hget (q : Path) : (w.files.insert p contents).get? q =
        if s.before.locate (a.name file) = .ok q then some contents else w.files.get? q := by
      simp [Files.get?_insert, hp]
    simpa using hr.change hfile hdirectories hget fun _ => ⟨p, hp⟩

theorem read : w.files.read file = s.before.read file := by
  obtain ⟨contents, hread⟩ := (s.prepared.ready file hfile).readable
  obtain ⟨p, hp, hget⟩ := Files.read_eq_ok_iff.mp hread
  rw [hread, Files.read_eq_ok_iff]
  refine ⟨p, (Files.locate_congr hr.directories).mpr hp, ?_⟩
  rw [hr.others p fun other hother a ha => ?_, hget]
  simp [(vacant hother ha).1] at hget

theorem has_iff (a : Artifact) : w.files.Has (a.name file) ↔ facts (.there file a) := by
  rw [← hr.holds (.there file a) hfile, Files.has_iff, Holds]
  refine exists_congr fun p => ?_
  rw [Files.locate_congr hr.directories]
  refine and_congr_right fun hp => or_iff_left ?_
  rw [Files.isDirectory, hr.directories, ← Files.isDirectory, (vacant hfile hp).2]
  exact Bool.false_ne_true

end Records

/-- The facts after a call that succeeds. -/
def add (facts : Fact → Prop) (file : String) (stage : Stage) : Fact → Prop :=
  let done := update facts (.done file stage) True
  stage.product?.elim done fun a => update done (.there file a) True

/-- The facts after an image has been made. -/
def built (facts : Fact → Prop) (file : String) : Fact → Prop :=
  update (add (add facts file .compile) file .link) (.there file .object) False

/-- The facts that there can be after a file has been linked. -/
def linked (facts : Fact → Prop) (file : String) : List (Fact → Prop) :=
  [facts, update (add facts file .compile) (.there file .object) False, built facts file,
    update (add (built facts file) file .flash) (.there file .image) False]

/-- What is known of a file after its turn. -/
abbrev Settled (s : Setup) (file : String) (facts : Fact → Prop) : Prop :=
  s.job.Leaves s.before file (fun a => facts (.there file a)) fun stage => facts (.done file stage)

namespace Records

variable (hr : s.Records facts w) (hfile : file ∈ s.files)

include hr

theorem note (text : String) :
    Work.Ends (s.job.note text) w (fun _ => s.Records facts) fun _ => False := by
  unfold Job.note
  split_ifs
  · exact hr.congr rfl rfl
  · exact hr

theorem notes (texts : List String) :
    Work.Ends (texts.forM s.job.note) w (fun _ => s.Records facts) fun _ => False := by
  induction texts generalizing w with
  | nil => exact hr
  | cons text texts ih => exact (hr.note text).bind (fun _ => id) fun _ _ hr' => ih hr'

include hfile

theorem start (stage : Stage) :
    let started := Workspace.start s.tools (s.job.call file stage) w
    s.Records (if started.1.failure = none then add facts file stage else facts) started.2 := by
  have hcalled := hr.called file stage
  have hcreates := s.faithful.creates w.calls file hfile stage
  unfold Workspace.start
  by_cases hcancelled : (w.cancelled && s.tools.cancellable) = true
  · simpa [hcancelled] using hr
  by_cases hfailure : (s.tools.reply w.calls (s.job.call file stage)).failure = none
  · rw [if_pos hfailure] at hcreates hcalled
    cases hproduct : stage.product? with
    | none => simpa [hcancelled, hcreates, hfailure, add, hproduct] using hcalled
    | some a =>
      obtain ⟨p, hp⟩ := s.faithful.place w.calls file hfile stage a hproduct hfailure
      obtain ⟨fs, hwrite, hr'⟩ := hcalled.write hfile hp []
      simpa [hcancelled, hcreates, hfailure, add, hproduct, Files.touch, hwrite] using hr'
  · rw [if_neg hfailure] at hcreates hcalled
    simpa [hcancelled, hcreates, hfailure] using hcalled

theorem tool (stage : Stage) :
    Work.Ends (Toolchain.tool s.tools (s.job.call file stage).program (s.job.call file stage).args)
      w (fun _ => s.Records (add facts file stage)) (s.Records facts) := by
  have hstarted : Work.Ends (ε := Toolchain.Fault)
      (modifyGet (Workspace.start s.tools (s.job.call file stage))) w
      (fun reply => s.Records (if reply.failure = none then add facts file stage else facts))
      (s.Records facts) := hr.start hfile stage
  refine hstarted.bind (fun _ => id) fun reply w' hr' => ?_
  cases hfailure : reply.failure <;> rw [hfailure] at hr'
  · exact hr'
  · exact hr'

theorem compile : Work.Ends (s.job.toolchain.compile s.tools (Job.codePath file)) w
    (fun object w' => object = Artifact.object.name file ∧
      s.Records (add facts file .compile) w') (s.Records facts) := by
  have hobject : Toolchain.objectPath (Job.codePath file) = Artifact.object.name file :=
    congrArg (· ++ ".o") (dropEnding_append file ".ll")
  unfold Toolchain.compile
  rw [hobject]
  exact (hr.tool hfile .compile).bind (fun _ => id) fun _ w' hr' => ⟨rfl, hr'⟩

theorem build : Work.Ends (s.job.toolchain.build s.tools (Job.codePath file)) w
    (fun image w' => image = Artifact.image.name file ∧ s.Records (built facts file) w')
    (fun w' => ∃ facts' ∈ linked facts file, s.Records facts' w') := by
  have himage : Toolchain.imagePath (Job.codePath file) = Artifact.image.name file :=
    congrArg (· ++ ".hex") (dropEnding_append file ".ll")
  unfold Toolchain.build
  rw [himage]
  split_ifs
  · exact ⟨facts, by simp [linked], hr⟩
  refine (hr.compile hfile).bind (fun _ hr' => ⟨facts, by simp [linked], hr'⟩) ?_
  rintro _ w1 ⟨rfl, hr1⟩
  have hlink := ((hr1.tool hfile .link).mapError (f := Toolchain.Fault.linking)).afterwards
    (fun _ w2 hr2 => hr2.erase hfile .object) fun w2 hr2 => hr2.erase hfile .object
  exact hlink.bind (fun _ hr2 => ⟨_, by simp [linked], hr2⟩) fun _ w2 hr2 => ⟨rfl, hr2⟩

theorem flash : Work.Ends (s.job.toolchain.flash s.tools (Artifact.image.name file) s.job.device) w
    (fun _ => s.Records (add facts file .flash)) (s.Records facts) := by
  unfold Toolchain.flash
  dsimp only
  split_ifs
  exacts [hr, hr, hr, (hr.tool hfile .flash).mapError]

theorem link : Work.Ends (s.job.link s.tools file (Job.codePath file)) w
    (fun _ w' => ∃ facts' ∈ linked facts file, s.Records facts' w')
    (fun w' => ∃ facts' ∈ linked facts file, s.Records facts' w') := by
  have hbuilt : built facts file ∈ linked facts file := by simp [linked]
  refine ((hr.build hfile).mapError (f := Job.Fault.tools file)).bind (fun _ => id) ?_
  rintro _ w1 ⟨rfl, hr1⟩
  split_ifs
  · unfold Job.upload
    have hr2 : s.Records _ (w1.print s!"{s.job.device} << {file}...") := hr1.congr rfl rfl
    refine (((hr2.flash hfile).mapError (f := Job.Fault.tools file)).afterError
      (f := (·.print "\n")) fun w' hr' => ⟨_, hbuilt, hr'.congr rfl rfl⟩).bind
        (fun _ => id) fun _ w3 hr3 => ?_
    exact ⟨_, by simp [linked], (hr3.erase hfile .image).congr rfl rfl⟩
  · exact ⟨_, hbuilt, hr1.congr rfl rfl⟩

theorem store (contents : Bytes) : Work.Ends (Job.store (Job.codePath file) contents) w
    (fun _ w' => (∃ p, s.before.locate (Artifact.code.name file) = .ok p) ∧
      s.Records (update facts (.there file .code) True) w')
    (fun w' => (¬∃ p, s.before.locate (Artifact.code.name file) = .ok p) ∧
      s.Records facts w') := by
  unfold Work.Ends Job.store
  by_cases hp : ∃ p, s.before.locate (Artifact.code.name file) = .ok p
  · obtain ⟨p, hp⟩ := hp
    obtain ⟨fs, hwrite, hr'⟩ := hr.write hfile hp contents
    have hcode : w.files.write (Job.codePath file) contents = .ok fs := hwrite
    rw [hcode]
    exact ⟨⟨p, hp⟩, hr'⟩
  · cases hwrite : w.files.write (Job.codePath file) contents with
    | error reason => exact ⟨hp, hr⟩
    | ok fs =>
      refine (hp ?_).elim
      unfold Files.write at hwrite
      cases hlocate : w.files.locate (Job.codePath file) with
      | error fault => simp [hlocate] at hwrite
      | ok p => exact ⟨p, (Files.locate_congr hr.directories).mp hlocate⟩

theorem emit : Work.Ends (s.job.emit file) w
    (fun code w' => code = Job.codePath file ∧ s.job.Writes s.before file ∧
      s.Records (update facts (.there file .code) True) w')
    (fun w' => ¬s.job.Writes s.before file ∧ s.Records facts w') := by
  obtain ⟨source, hread⟩ := (s.prepared.ready file hfile).readable
  have hcompiles : s.job.Compiles s.before file ↔
      ∃ c m, s.job.compilation file source = .ok c ∧ c.module? = some m := by
    simp [Job.Compiles, hread]
  unfold Job.emit
  refine .bind (Q := fun s w' => s = w ∧ w' = w) ⟨rfl, rfl⟩ (fun _ => False.elim) ?_
  rintro _ _ ⟨rfl, rfl⟩
  rw [hr.read hfile, hread]
  dsimp only
  cases hc : s.job.compilation file source with
  | error fault => exact ⟨fun hw => by simpa [hc] using hcompiles.mp hw.1, hr⟩
  | ok c =>
    refine (hr.notes c.log).bind (fun _ => False.elim) fun _ w1 hr1 => ?_
    cases hm : c.module? with
    | none =>
      exact ⟨fun hw => by simpa [hc, hm] using hcompiles.mp hw.1, hr1.congr rfl rfl⟩
    | some m =>
      have hwrites := and_iff_right (b := ∃ p, s.before.locate (Artifact.code.name file) = .ok p)
        (hcompiles.mpr ⟨c, m, hc, hm⟩)
      dsimp only
      -- Warnings are shown or not; the code is written in any case.
      split_ifs
      on_goal 1 =>
        have hr1 : s.Records facts (w1.tell (c.diagnostics.format file ++ "\n")) :=
          hr1.congr rfl rfl
      all_goals
        refine (hr1.store hfile (Bytes.ofString m.text)).bind
          (fun _ => And.imp_left (mt hwrites.mp)) fun _ w2 hw2 => ?_
        exact (hw2.2.note _).bind (fun _ => False.elim) fun _ w3 hr3 =>
          ⟨rfl, hwrites.mpr hw2.1, hr3⟩

theorem unit (hnew : ∀ f : Fact, f.file = file → ¬facts f) :
    let After w' := ∃ facts', s.Records facts' w' ∧ s.Settled file facts' ∧
      ∀ f : Fact, f.file ≠ file → (facts' f ↔ facts f)
    Work.Ends (s.job.unit s.tools file) w (fun _ => After) After := by
  intro After
  have hthere (a : Artifact) := hnew (.there file a) rfl
  have hdone (stage : Stage) := hnew (.done file stage) rfl
  unfold Job.unit
  refine (hr.emit hfile).bind (fun w' h => ⟨facts, h.2, ?_, fun _ _ => .rfl⟩) ?_
  · constructor <;> simp [hthere, hdone, h.1]
  rintro _ w1 ⟨rfl, hw, hr1⟩
  have hafter {facts'} {w'} (keep : Prop)
      (h : facts' ∈ linked (update facts (.there file .code) True) file)
      (hkeep : keep ↔ s.job.command = .emit ∨ s.job.keepCode = true)
      (hr' : s.Records (update facts' (.there file .code) keep) w') : After w' := by
    simp only [linked, List.mem_cons, List.not_mem_nil, or_false] at h
    refine ⟨_, hr', ?_, fun f hf => ?_⟩
    · rcases h with rfl | rfl | rfl | rfl <;> constructor <;>
        simp [add, built, Stage.product?, hthere, hdone, hw, hkeep]
    · rcases h with rfl | rfl | rfl | rfl <;> cases f <;>
        simp_all [add, built, Stage.product?, Fact.file]
  have hcode {facts'} (h : facts' ∈ linked (update facts (.there file .code) True) file) :
      update facts' (.there file .code) True = facts' := by
    simp only [linked, List.mem_cons, List.not_mem_nil, or_false] at h
    rw [Function.update_eq_self_iff]
    rcases h with rfl | rfl | rfl | rfl <;> simp [add, built, Stage.product?]
  split_ifs with hemit hkeep
  · refine hafter True List.mem_cons_self (by simp [hemit]) ?_
    rw [hcode List.mem_cons_self]
    exact hr1.congr rfl rfl
  · have hkept {w'} : (∃ facts' ∈ linked (update facts (.there file .code) True) file,
        s.Records facts' w') → After w' := by
      rintro ⟨facts', h, hr'⟩
      exact hafter True h (by simp [hkeep]) ((hcode h).symm ▸ hr')
    exact (hr1.link hfile).mono (fun _ _ => hkept) fun _ => hkept
  · have herased {w'} : (∃ facts' ∈ linked (update facts (.there file .code) True) file,
        s.Records facts' w') → After (w'.erase (Job.codePath file)) := by
      rintro ⟨facts', h, hr'⟩
      exact hafter False h (by simp [hemit, hkeep]) (hr'.erase hfile .code)
    exact (hr1.link hfile).afterwards (fun _ _ => herased) fun _ => herased

omit hfile in
theorem units {rest : List String} (hrest : rest ⊆ s.files) (hnodup : rest.Nodup)
    (hnew : ∀ f : Fact, f.file ∈ rest → ¬facts f) :
    ∃ facts', s.Records facts' (s.job.units s.tools rest w).2 ∧
      (∀ file ∈ rest, s.Settled file facts') ∧
      ∀ f : Fact, f.file ∉ rest → (facts' f ↔ facts f) := by
  induction rest generalizing facts w with
  | nil => exact ⟨facts, hr, by simp, by simp⟩
  | cons file rest ih =>
    obtain ⟨hnotin, hnodup⟩ := List.nodup_cons.mp hnodup
    obtain ⟨hfile, hrest⟩ := List.cons_subset.mp hrest
    have hunit := hr.unit hfile fun f hf => hnew f (by simp [hf])
    obtain ⟨w1, hw1, facts1, hr1, hs1, ho1⟩ : ∃ w1, (s.job.units s.tools (file :: rest) w).2 =
        (s.job.units s.tools rest w1).2 ∧ ∃ facts1, s.Records facts1 w1 ∧
          s.Settled file facts1 ∧ ∀ f : Fact, f.file ≠ file → (facts1 f ↔ facts f) := by
      unfold Work.Ends at hunit
      rw [Job.units]
      cases h : s.job.unit s.tools file w <;> rw [h] at hunit
      · exact ⟨_, rfl, hunit⟩
      · exact ⟨_, rfl, hunit.imp fun _ h1 => ⟨h1.1.congr rfl rfl, h1.2⟩⟩
    obtain ⟨facts2, hr2, hs2, ho2⟩ := ih hr1 hrest hnodup fun f hf =>
      mt (ho1 f fun h => hnotin (h ▸ hf)).mp (hnew f (by simp [hf]))
    refine ⟨facts2, hw1 ▸ hr2, List.forall_mem_cons.mpr ⟨?_, hs2⟩, fun f hf => ?_⟩
    · exact hs1.congr (fun a => ho2 (.there file a) hnotin) fun stage =>
        ho2 (.done file stage) hnotin
    · rw [List.mem_cons, not_or] at hf
      rw [ho2 f hf.2, ho1 f hf.1]

end Records

end Setup

namespace Job

/-- The files that there are if there is one of a name without contents. -/
def single (name : List Char) : Files := ⟨[(⟨false, [name]⟩, [])], []⟩

end Job

end BoardPython
