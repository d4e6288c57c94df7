import BoardPython.Proofs.ModuleNames

/-! Renamings of what a module numbers: the blocks of branches, loops and returns, its string
literals, and the places of its functions. A renaming is one to one, so that building a body
commutes with it. -/
namespace BoardPython

namespace Ir

/-- What a module has numbers for. -/
inductive Counter where
  | ifs | whiles | returns | strings
  deriving DecidableEq

/-- Other numbers for blocks and string literals, and other places for functions. -/
structure Renaming where
  number : Counter → Equiv.Perm Nat
  place : Equiv.Perm Nat

def Renaming.ofPlaces (place : Equiv.Perm Nat) : Renaming := ⟨fun _ => 1, place⟩

/-- The names of string literals are those of other numbers; other names stay. -/
noncomputable def Renaming.literal (ρ : Renaming) : Equiv.Perm String :=
  (ρ.number .strings).viaEmbedding ⟨Lowering.literalName, Lowering.literalName_injective⟩

theorem Renaming.literal_literalName (ρ : Renaming) (n : Nat) :
    ρ.literal (Lowering.literalName n) = Lowering.literalName (ρ.number .strings n) :=
  Equiv.Perm.viaEmbedding_apply (ρ.number .strings)
    ⟨Lowering.literalName, Lowering.literalName_injective⟩ n

theorem Renaming.literal_ofPlaces (place : Equiv.Perm Nat) : (ofPlaces place).literal = 1 :=
  map_one (Equiv.Perm.viaEmbeddingHom
    ⟨Lowering.literalName, Lowering.literalName_injective⟩)

namespace Label

def rename (ρ : Renaming) : Label → Label
  | entry => entry
  | ifThen id => ifThen (ρ.number .ifs id)
  | ifElse id => ifElse (ρ.number .ifs id)
  | ifMerge id => ifMerge (ρ.number .ifs id)
  | whileCond id => whileCond (ρ.number .whiles id)
  | whileBody id => whileBody (ρ.number .whiles id)
  | whileExit id => whileExit (ρ.number .whiles id)
  | afterReturn id => afterReturn (ρ.number .returns id)

theorem rename_injective (ρ : Renaming) : Function.Injective (rename ρ) := by
  intro l l' h
  cases l <;> cases l' <;> simp [rename] at h <;> simp [h]

theorem rename_ofPlaces (place : Equiv.Perm Nat) (l : Label) : l.rename (.ofPlaces place) = l := by
  cases l <;> rfl

end Label

namespace Terminator

def rename (ρ : Renaming) : Terminator → Terminator
  | ret value => ret value
  | jump target => jump (target.rename ρ)
  | branch cond yes no => branch cond (yes.rename ρ) (no.rename ρ)

theorem rename_ofPlaces (place : Equiv.Perm Nat) (t : Terminator) :
    t.rename (.ofPlaces place) = t := by
  cases t <;> simp only [rename, Label.rename_ofPlaces]

end Terminator

def Callee.moved (place : Equiv.Perm Nat) (f : Callee) : Callee := { f with id := place f.id }

namespace Operation

noncomputable def rename (ρ : Renaming) : Operation → Operation
  | firstByte name length => firstByte (ρ.literal name) length
  | call tail callee args => call tail (callee.moved ρ.place) args
  | op => op

theorem type_rename (ρ : Renaming) (op : Operation) : (op.rename ρ).type = op.type := by
  cases op <;> rfl

theorem text_rename_ofPlaces (place : Equiv.Perm Nat) (number : Numbering) (op : Operation) :
    (op.rename (.ofPlaces place)).text number = op.text number := by
  cases op with
  | firstByte name length =>
    rw [rename, Renaming.literal_ofPlaces]
    rfl
  | _ => rfl

end Operation

noncomputable def Instr.rename (ρ : Renaming) (i : Instr) : Instr :=
  { i with operation := i.operation.rename ρ }

theorem Instr.text_rename_ofPlaces (place : Equiv.Perm Nat) (number : Numbering) (i : Instr) :
    (i.rename (.ofPlaces place)).text number = i.text number := by
  unfold Instr.text Instr.rename
  rw [Operation.text_rename_ofPlaces]

namespace Block

noncomputable def rename (ρ : Renaming) (b : Block) : Block where
  label := b.label.rename ρ
  instrs := b.instrs.map (Instr.rename ρ)
  terminator := b.terminator.map (Terminator.rename ρ)

theorem lines_rename_ofPlaces (place : Equiv.Perm Nat) (number : Numbering) (b : Block) :
    (b.rename (.ofPlaces place)).lines number = b.lines number := by
  have hinstrs : Instr.text number ∘ Instr.rename (.ofPlaces place) = Instr.text number :=
    funext fun i => i.text_rename_ofPlaces place number
  have hterminator : Terminator.rename (.ofPlaces place) = id :=
    funext fun t => t.rename_ofPlaces place
  unfold lines rename
  rw [Label.rename_ofPlaces, List.map_map, hinstrs, hterminator, Option.map_id_fun, id_eq]

end Block

namespace Function

noncomputable def rename (ρ : Renaming) (f : Function) : Function :=
  { f with blocks := f.blocks.map (Block.rename ρ) }

theorem rename_of_blocks_eq_nil (ρ : Renaming) {f : Function} (h : f.blocks = []) :
    f.rename ρ = f := by
  cases f
  cases h
  rfl

theorem registers_rename (ρ : Renaming) (f : Function) : (f.rename ρ).registers = f.registers := by
  simp only [registers, rename, Block.rename, List.flatMap_map, List.filterMap_map]
  rfl

theorem text_rename_ofPlaces (place : Equiv.Perm Nat) (f : Function) :
    (f.rename (.ofPlaces place)).text = f.text := by
  have hnumbering : (f.rename (.ofPlaces place)).numbering = f.numbering := by
    unfold numbering
    rw [registers_rename]
  have hlines : (fun b : Block => unlines (b.lines f.numbering)) ∘ Block.rename (.ofPlaces place) =
      fun b => unlines (b.lines f.numbering) :=
    funext fun b => congrArg unlines (b.lines_rename_ofPlaces place f.numbering)
  have hblocks : (f.rename (.ofPlaces place)).blocks =
      f.blocks.map (Block.rename (.ofPlaces place)) := rfl
  unfold text
  dsimp only
  rw [hnumbering, hblocks, List.isEmpty_map, List.map_map, hlines]
  rfl

end Function

/-- Only string literals are global without an address that matters. -/
noncomputable def Global.rename (ρ : Renaming) (g : Global) : Global :=
  if g.unnamedAddr then { g with name := ρ.literal g.name } else g

/-- Two blocks of numbers change places: the `a` numbers after `p` and the `b` numbers after
them. -/
def rotation (p a b : Nat) : Equiv.Perm Nat where
  toFun n := if p < n ∧ n ≤ p + a then n + b else if p + a < n ∧ n ≤ p + a + b then n - a else n
  invFun n := if p < n ∧ n ≤ p + b then n + a else if p + b < n ∧ n ≤ p + b + a then n - b else n
  left_inv n := by
    dsimp only
    split_ifs <;> omega
  right_inv n := by
    dsimp only
    split_ifs <;> omega

theorem rotation_apply (p a b n : Nat) : rotation p a b n =
    if p < n ∧ n ≤ p + a then n + b else if p + a < n ∧ n ≤ p + a + b then n - a else n := rfl

end Ir

namespace Lowering

open Ir (Block Instr Label Renaming Terminator)

namespace Body

noncomputable def rename (ρ : Renaming) (b : Body) : Body where
  blocks := b.blocks.map (Block.rename ρ)
  current := b.current.rename ρ
  register := b.register

variable (ρ : Renaming) (b : Body)

/-- The block that is changed is found under its new label, since no other one has it. -/
theorem rename_update (l : Label) {f g : Block → Block}
    (h : ∀ block, (f block).rename ρ = g (block.rename ρ)) :
    (b.update l f).rename ρ = (b.rename ρ).update (l.rename ρ) g := by
  unfold update rename
  congr 1
  rw [List.map_map, List.map_map]
  apply List.map_congr_left
  intro block _
  by_cases hl : block.label = l
  · have hl' : (block.rename ρ).label = l.rename ρ := congrArg (Label.rename ρ) hl
    rw [Function.comp_apply, Function.comp_apply, if_pos hl, if_pos hl', h]
  · have hl' : (block.rename ρ).label ≠ l.rename ρ := fun heq => hl (Label.rename_injective ρ heq)
    rw [Function.comp_apply, Function.comp_apply, if_neg hl, if_neg hl']

theorem rename_append (l : Label) (instrs : List Instr) :
    (b.append l instrs).rename ρ = (b.rename ρ).append (l.rename ρ) (instrs.map (Instr.rename ρ)) :=
  b.rename_update ρ l fun block => by simp [Block.rename]

theorem rename_close (t : Terminator) :
    (b.close t).rename ρ = (b.rename ρ).close (t.rename ρ) :=
  b.rename_update ρ b.current fun _ => rfl

theorem isOpen_rename : (b.rename ρ).isOpen = b.isOpen := by
  unfold isOpen rename
  rw [List.any_map]
  congr 1
  funext block
  have hlabel : ((block.rename ρ).label == b.current.rename ρ) = (block.label == b.current) := by
    rw [Bool.eq_iff_iff, beq_iff_eq, beq_iff_eq]
    exact (Label.rename_injective ρ).eq_iff
  have hterminator : (block.rename ρ).terminator.isNone = block.terminator.isNone :=
    Option.isNone_map
  rw [Function.comp_apply, hlabel, hterminator]

theorem rename_finish (t : Terminator) :
    (b.finish t).rename ρ = (b.rename ρ).finish (t.rename ρ) := by
  unfold finish
  rw [isOpen_rename]
  split
  · exact b.rename_close ρ t
  · rfl

theorem rename_create (labels : List Label) :
    (b.create labels).rename ρ = (b.rename ρ).create (labels.map (Label.rename ρ)) := by
  simp [create, rename, Block.rename]

theorem rename_goto (l : Label) : (b.goto l).rename ρ = (b.rename ρ).goto (l.rename ρ) := rfl

end Body

end Lowering

end BoardPython
