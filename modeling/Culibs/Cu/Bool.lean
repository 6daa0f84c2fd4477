import Culibs.Cu.Int

/-! The enumerations of boolean functions in `cu/bool.h` and their images of words in `cu/word.h`
and `cu/word.c`. -/

namespace Culibs.Cu

open BitVec

/-- `cu_bool1f_t` -/
inductive Bool1f where
  | false
  | true
  | ident
  | not

/-- `cu_bool2f_t` -/
inductive Bool2f where
  | false
  | true
  | left
  | right
  | notLeft
  | notRight
  | nor
  | xor
  | nand
  | and
  | iff
  | or
  | andNot
  | notAnd
  | orNot
  | notOr

def Bool1f.code : Bool1f → BitVec 2
  | .false => 0x0
  | .true => 0x3
  | .ident => 0x2
  | .not => 0x1

def Bool2f.code : Bool2f → BitVec 4
  | .false => 0x0
  | .true => 0xf
  | .left => 0xa
  | .right => 0xc
  | .notLeft => 0x5
  | .notRight => 0x3
  | .nor => 0x1
  | .xor => 0x6
  | .nand => 0x7
  | .and => 0x8
  | .iff => 0x9
  | .or => 0xe
  | .andNot => 0x2
  | .notAnd => 0x4
  | .orNot => 0xb
  | .notOr => 0xd

/-- The cast `(cu_bool2f_t)`. -/
def Bool2f.ofCode (code : BitVec 4) : Bool2f :=
  match code.toNat with
  | 0x0 => .false
  | 0x1 => .nor
  | 0x2 => .andNot
  | 0x3 => .notRight
  | 0x4 => .notAnd
  | 0x5 => .notLeft
  | 0x6 => .xor
  | 0x7 => .nand
  | 0x8 => .and
  | 0x9 => .iff
  | 0xa => .left
  | 0xb => .orNot
  | 0xc => .right
  | 0xd => .notOr
  | 0xe => .or
  | _ => .true

def bool1fApply (f : Bool1f) (x : Bool) : Bool := (f.code >>> x.toNat).getLsbD 0

def bool2fApply (f : Bool2f) (x y : Bool) : Bool := (f.code >>> (x.toNat ||| 2 * y.toNat)).getLsbD 0

def bool2fSwap (f : Bool2f) : Bool2f :=
  .ofCode (f.code &&& 9 ||| (f.code &&& 2) <<< 1 ||| (f.code &&& 4) >>> 1)

theorem bool2fApply_swap (f : Bool2f) (x y : Bool) : bool2fApply (bool2fSwap f) x y = bool2fApply f y x := by
  cases f <;> cases x <;> cases y <;> rfl

def wordBitimg (f : Bool1f) (x : Word) : Word :=
  if f.code.getLsbD 0 then (if f.code.getLsbD 1 then ~~~0 else ~~~x) else if f.code.getLsbD 1 then x else 0

/-- The functions with a code less than 8 have a case, `none` is `cu_debug_unreachable`. -/
def wordBitimg2 (f : Bool2f) (x y : Word) : Option Word :=
  let notR := f.code ≥ 8#4
  let f := if notR then Bool2f.ofCode (15 - f.code) else f
  let r := match f with
    | .false => some 0
    | .nor => some (~~~x &&& ~~~y)
    | .andNot => some (x &&& ~~~y)
    | .notRight => some (~~~y)
    | .notAnd => some (~~~x &&& y)
    | .notLeft => some (~~~x)
    | .xor => some (x ^^^ y)
    | .nand => some (~~~(x &&& y))
    | _ => none
  if notR then r.map (~~~·) else r

theorem getLsbD_wordBitimg (f : Bool1f) (x : Word) (bound : j < 64) :
    (wordBitimg f x).getLsbD j = bool1fApply f (x.getLsbD j) := by
  cases f with
  | false => exact (getLsbD_zero ..).trans (by cases x.getLsbD j <;> rfl)
  | true =>
    change (~~~0#64).getLsbD j = _
    rw [getLsbD_not, getLsbD_zero, decide_eq_true bound]
    cases x.getLsbD j <;> rfl
  | ident =>
    change x.getLsbD j = _
    cases x.getLsbD j <;> rfl
  | not =>
    change (~~~x).getLsbD j = _
    rw [getLsbD_not, decide_eq_true bound]
    cases x.getLsbD j <;> rfl

theorem wordBitimg2_spec (f : Bool2f) (x y : Word) : ∃ r, wordBitimg2 f x y = some r ∧
    ∀ j < 64, r.getLsbD j = bool2fApply f (x.getLsbD j) (y.getLsbD j) := by
  cases f <;> refine ⟨_, rfl, fun j bound => ?_⟩ <;>
    simp only [ofNat_eq_ofNat, getLsbD_not, getLsbD_and, getLsbD_xor, getLsbD_zero, decide_eq_true bound] <;>
    cases x.getLsbD j <;> cases y.getLsbD j <;> rfl

end Culibs.Cu
