import Mathlib
import BoardPython.Toolchain

/-! Which code generators are accepted. The version is the first one in the version text that has a
major and a minor number: `check_accepts_supported`. -/
namespace BoardPython.Toolchain

namespace Version

variable {cs ds rest : List Char} {numbers : List (List Char)}

/-- A text begins with digits, all that stand there, and goes on with `rest`. -/
def Number (cs ds rest : List Char) : Prop :=
  ds ≠ [] ∧ ds = cs.takeWhile Char.isDigit ∧ rest = cs.dropWhile Char.isDigit

def Pointed (cs ds rest : List Char) : Prop := ∃ r, cs = '.' :: r ∧ Number r ds rest

/-- A text begins with the numbers of a version. The third one is there unless it is missing. -/
def Dotted (cs : List Char) (numbers : List (List Char)) : Prop :=
  ∃ major minor r s, Number cs major r ∧ Pointed r minor s ∧
    ((numbers = [major, minor] ∧ ∀ patch s', ¬Pointed s patch s') ∨
      ∃ patch s', numbers = [major, minor, patch] ∧ Pointed s patch s')

/-- The first version behind a mark. -/
def Leftmost (text : List Char) (numbers : List (List Char)) : Prop :=
  ∃ before after, text = before ++ (mark ++ after) ∧ Dotted after numbers ∧
    ∀ b a, text = b ++ (mark ++ a) → b.length < before.length → ∀ others, ¬Dotted a others

theorem number_iff : Number cs ds rest ↔ digits cs = (ds, rest) ∧ ds ≠ [] := by
  rw [Number, digits, Prod.mk.injEq, eq_comm, eq_comm (a := rest)]
  exact And.comm

theorem pointDigits?_eq_some_iff : pointDigits? cs = some (ds, rest) ↔ Pointed cs ds rest := by
  simp only [Pointed, number_iff]
  unfold pointDigits?
  split
  · rename_i r
    rcases hdigits : digits r with ⟨_ | ⟨d, ds'⟩, s⟩
    · simp +contextual [hdigits]
    · simp only [List.cons.injEq, true_and, exists_eq_left', hdigits, Option.some.injEq]
      refine ⟨fun h => ⟨h, ?_⟩, And.left⟩
      rw [← (Prod.mk.inj h).1]
      exact List.cons_ne_nil d ds'
  · rename_i hother
    simp only [reduceCtorEq, false_iff, not_exists, not_and]
    exact fun r hr => absurd hr (hother r)

theorem segments?_eq_some_iff : segments? cs = some numbers ↔ Dotted cs numbers := by
  simp only [Dotted, number_iff, ← pointDigits?_eq_some_iff]
  unfold segments?
  rcases hdigits : digits cs with ⟨_ | ⟨c, major⟩, r⟩
  · simp
  dsimp only
  rcases hminor : pointDigits? r with _ | ⟨minor, s⟩
  · simp [hminor]
  dsimp only
  rcases hpatch : pointDigits? s with _ | ⟨patch, s'⟩ <;> simp [hminor, hpatch, eq_comm]

theorem marked_iff :
    (if mark.isPrefixOf cs then segments? (cs.drop mark.length) else none) = some numbers ↔
      ∃ after, cs = mark ++ after ∧ Dotted after numbers := by
  simp only [← segments?_eq_some_iff, List.isPrefixOf_iff_prefix]
  constructor
  · intro h
    split_ifs at h with hmark
    obtain ⟨after, rfl⟩ := hmark
    rw [List.drop_left] at h
    exact ⟨after, rfl, h⟩
  · rintro ⟨after, rfl, h⟩
    rw [if_pos (List.prefix_append ..), List.drop_left, h]

/-- The search stops at the first mark with a version behind it. -/
theorem find?_eq_some_iff : find? cs = some numbers ↔ Leftmost cs numbers := by
  induction cs with
  | nil =>
    have hmark : mark ≠ [] := by decide
    simp [find?, Leftmost, hmark]
  | cons c cs ih =>
    rw [find?]
    generalize hhere :
      (if mark.isPrefixOf (c :: cs) then segments? ((c :: cs).drop mark.length) else none) = here
    cases here with
    | some found =>
      obtain ⟨after, heq, hafter⟩ := marked_iff.mp hhere
      constructor
      · rintro ⟨⟩
        exact ⟨[], after, heq, hafter, fun b a _ hlt => absurd hlt (Nat.not_lt_zero _)⟩
      · rintro ⟨_ | ⟨b, before⟩, after', heq', hafter', hfirst⟩
        · exact hhere.symm.trans (marked_iff.mpr ⟨after', heq', hafter'⟩)
        · exact absurd hafter (hfirst [] after heq (Nat.succ_pos _) found)
    | none =>
      have hnone (a : List Char) (others : List (List Char)) (heq : c :: cs = mark ++ a) :
          ¬Dotted a others := fun hdotted => by
        rw [marked_iff.mpr ⟨a, heq, hdotted⟩] at hhere
        cases hhere
      rw [ih]
      constructor
      · rintro ⟨before, after, rfl, hafter, hfirst⟩
        refine ⟨c :: before, after, rfl, hafter, fun b a heq hlt others => ?_⟩
        cases b with
        | nil => exact hnone a others heq
        | cons b bs => exact hfirst bs a (List.cons.inj heq).2 (Nat.lt_of_succ_lt_succ hlt) others
      · rintro ⟨_ | ⟨b, before⟩, after, heq, hafter, hfirst⟩
        · exact absurd hafter (hnone after numbers heq)
        · obtain ⟨rfl, rfl⟩ := List.cons.inj heq
          exact ⟨before, after, rfl, hafter, fun b' a heq' hlt =>
            hfirst (c :: b') a (congrArg (c :: ·) heq') (Nat.succ_lt_succ hlt)⟩

/-- The value of digits in base ten. -/
def decimal (ds : List Char) : Nat := Nat.ofDigits 10 (ds.reverse.map fun c => c.toNat - 48)

def ofNumbers (numbers : List (List Char)) : Version :=
  ⟨decimal (numbers.getD 0 []), decimal (numbers.getD 1 []), decimal (numbers.getD 2 [])⟩

theorem value_eq_decimal (ds : List Char) : value ds = decimal ds := by
  induction ds using List.reverseRecOn with
  | nil => rfl
  | append_singleton ds c ih =>
    rw [decimal, List.reverse_append, List.map_append, List.reverse_singleton, List.map_singleton,
      List.singleton_append, Nat.ofDigits_cons, ← decimal, ← ih, value, List.foldl_append]
    exact (Nat.add_comm ..).trans (congrArg _ (Nat.mul_comm ..))

theorem segment_eq (ds : List Char) : segment ds =
    if decimal ds < 2 ^ 64 then .ok (decimal ds) else .error (.segment (String.ofList ds)) := by
  rw [segment, value_eq_decimal]
  exact if_congr Nat.lt_succ_iff.symm rfl rfl

/-- The numbers are those of the first version, if they are small. -/
theorem ofText_eq_ok_iff {text : String} {v : Version} : ofText text = .ok v ↔
    ∃ numbers, Leftmost text.toList numbers ∧ (∀ ds ∈ numbers, decimal ds < 2 ^ 64) ∧
      v = ofNumbers numbers := by
  have hnil : decimal [] = 0 := rfl
  simp only [← find?_eq_some_iff]
  unfold ofText
  cases hfind : find? text.toList with
  | none => simp
  | some numbers =>
    obtain ⟨-, -, -, ⟨major, minor, -, -, -, -, ⟨rfl, -⟩ | ⟨patch, -, rfl, -⟩⟩, -⟩ :=
      find?_eq_some_iff.mp hfind
    all_goals
      simp only [segment_eq, Option.some.injEq, exists_eq_left', List.forall_mem_cons]
      split_ifs <;> simp [*, -Nat.reducePow, eq_comm, ofNumbers, bind, Except.bind, pure, Except.pure]

theorem atLeast_iff (v least : Version) : v.atLeast least = true ↔
    toLex (least.major, toLex (least.minor, least.patch)) ≤
      toLex (v.major, toLex (v.minor, v.patch)) := by
  simp only [atLeast, Prod.Lex.toLex_le_toLex, Bool.or_eq_true, Bool.and_eq_true,
    decide_eq_true_eq, beq_iff_eq]

end Version

theorem mentions_iff {part cs : List Char} : mentions part cs = true ↔ part <:+: cs := by
  induction cs with
  | nil => simp [mentions]
  | cons c cs ih => rw [mentions, Bool.or_eq_true, List.isPrefixOf_iff_prefix, ih, List.infix_cons_iff]

/-- The code generator runs and tells its version. -/
def Tells (reply : Reply) (v : Version) : Prop :=
  reply.failure = none ∧ Version.ofText reply.output = .ok v

/-- A version that is new enough, of a code generator that knows the processors. -/
def Supported (reply : Reply) (v : Version) : Prop :=
  toLex (13, toLex (0, 0)) ≤ toLex (v.major, toLex (v.minor, v.patch)) ∧
    "avr".toList <:+: reply.output.toList

theorem supported_iff {reply : Reply} {v : Version} : Supported reply v ↔
    v.atLeast .oldest = true ∧ mentions "avr".toList reply.output.toList = true := by
  rw [Version.atLeast_iff, mentions_iff]
  rfl

/-- The version of a text is that of the first dotted numbers behind `LLVM version `, and there is
none if there are no such numbers or one of them has more than 64 bits. The check succeeds exactly
if the program runs, tells a version of at least 13.0.0 and mentions the processors. A version comes
with the fault exactly if it is told and one of the last two does not hold. -/
theorem check_accepts_supported (t : Toolchain) (tools : Tools) (w : Workspace) (text : String) :
    (∀ v, Version.ofText text = .ok v ↔ ∃ numbers, Version.Leftmost text.toList numbers ∧
      (∀ ds ∈ numbers, Version.decimal ds < 2 ^ 64) ∧ v = .ofNumbers numbers) ∧
    ((∃ fault, Version.ofText text = .error fault) ↔
      ∀ numbers, Version.Leftmost text.toList numbers →
        ∃ ds ∈ numbers, 2 ^ 64 ≤ Version.decimal ds) ∧
    let asked := Workspace.start tools ⟨t.llc, ["--version"]⟩ w
    (∀ v w', t.check tools w = .ok v w' ↔
      Tells asked.1 v ∧ Supported asked.1 v ∧ asked.2 = w') ∧
    ∀ v, (∃ fault w', t.check tools w = .error fault w' ∧ fault.version? = some v) ↔
      Tells asked.1 v ∧ ¬Supported asked.1 v := by
  refine ⟨fun v => Version.ofText_eq_ok_iff, ?_, ?_⟩
  · have herror : (∃ fault, Version.ofText text = .error fault) ↔
        ∀ v, Version.ofText text ≠ .ok v := by
      cases Version.ofText text <;> simp
    simp only [herror, ne_eq, Version.ofText_eq_ok_iff, not_exists, not_and]
    constructor
    · intro h numbers hleftmost
      by_contra hlarge
      push Not at hlarge
      exact h _ numbers hleftmost hlarge rfl
    · intro h v numbers hleftmost hsmall
      obtain ⟨ds, hds, hlarge⟩ := h numbers hleftmost
      exact absurd (hsmall ds hds) (Nat.not_lt.mpr hlarge)
  · intro asked
    have hrun (k : Reply → Work Fault Version) :
        (modifyGet (Workspace.start tools ⟨t.llc, ["--version"]⟩) >>= k) w = k asked.1 asked.2 := rfl
    have hthrow (fault : Fault) :
        (throw fault : Work Fault Version) asked.2 = .error fault asked.2 := rfl
    have hreturn (v : Version) : (pure v : Work Fault Version) asked.2 = .ok v asked.2 := rfl
    simp only [Tells, supported_iff]
    rw [check, hrun]
    cases hfailure : asked.1.failure with
    | some reason => simp [hthrow, Fault.version?]
    | none =>
      cases hofText : Version.ofText asked.1.output with
      | error fault => simp [hthrow, Fault.version?]
      | ok v =>
        generalize mentions "avr".toList asked.1.output.toList = knows
        simp only [true_and, Except.ok.injEq]
        refine ⟨fun v' w' => ?_, fun v' => ?_⟩
        all_goals
          by_cases hv : v = v'
          · subst hv
            cases v.atLeast .oldest <;> cases knows <;> simp [hthrow, hreturn, Fault.version?]
          · cases v.atLeast .oldest <;> cases knows <;> simp [hthrow, hreturn, Fault.version?, hv]

end BoardPython.Toolchain
