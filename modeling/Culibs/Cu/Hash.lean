import Culibs.Cu.Int

/-! The hash functions of `cu/hash.c` for 64-bit words. -/

namespace Culibs.Cu

/-- `CU_HASH_BJMIX64` -/
def hashBjmix64 (a b c : Word) : Word × Word × Word :=
  let a := a - (b + c); let a := a ^^^ (c >>> 43)
  let b := b - (c + a); let b := b ^^^ (a <<< 9)
  let c := c - (a + b); let c := c ^^^ (b >>> 8)
  let a := a - (b + c); let a := a ^^^ (c >>> 38)
  let b := b - (c + a); let b := b ^^^ (a <<< 23)
  let c := c - (a + b); let c := c ^^^ (b >>> 5)
  let a := a - (b + c); let a := a ^^^ (c >>> 35)
  let b := b - (c + a); let b := b ^^^ (a <<< 49)
  let c := c - (a + b); let c := c ^^^ (b >>> 11)
  let a := a - (b + c); let a := a ^^^ (c >>> 12)
  let b := b - (c + a); let b := b ^^^ (a <<< 18)
  let c := c - (a + b); let c := c ^^^ (b >>> 22)
  (a, b, c)

/-- The loop of `cu_wordarr_hash_noinit_bj` over three words at a time, and the words after it. -/
def wordarrHashLoop : List Word → Word → Word → Word → (Word × Word × Word) × List Word
  | d0 :: d1 :: d2 :: arr, a, b, c =>
    let (a, b, c) := hashBjmix64 (a + d0) (b + d1) (c + d2)
    wordarrHashLoop arr a b c
  | arr, a, b, c => ((a, b, c), arr)

def wordarrHashNoinitBj (arr : List Word) : Word :=
  let ((a, b, c), rest) := wordarrHashLoop arr 0 0 0x9e3779b97f4a7c13
  let c := c + (BitVec.ofNat 64 arr.length <<< 3)
  match rest with
  | [d0, d1] => (hashBjmix64 (a + d0) (b + d1) c).2.2
  | [d0] => (hashBjmix64 (a + d0) b c).2.2
  | _ => (hashBjmix64 a b c).2.2

def oneWordHashNoinitBj (d0 : Word) : Word := (hashBjmix64 d0 0 0x9e3779b97f4a7c1b).2.2

def twoWordHashNoinitBj (d0 d1 : Word) : Word := (hashBjmix64 d0 d1 0x9e3779b97f4a7c23).2.2

theorem oneWordHash_eq (d0 : Word) : oneWordHashNoinitBj d0 = wordarrHashNoinitBj [d0] := by
  have count : (0x9e3779b97f4a7c13 : Word) + (BitVec.ofNat 64 [d0].length <<< 3) = 0x9e3779b97f4a7c1b := by
    rw [List.length_singleton]
    decide
  simp only [oneWordHashNoinitBj, wordarrHashNoinitBj, wordarrHashLoop]
  rw [count, show (0 : Word) + d0 = d0 from BitVec.zero_add d0]

theorem twoWordHash_eq (d0 d1 : Word) : twoWordHashNoinitBj d0 d1 = wordarrHashNoinitBj [d0, d1] := by
  have count : (0x9e3779b97f4a7c13 : Word) + (BitVec.ofNat 64 [d0, d1].length <<< 3) = 0x9e3779b97f4a7c23 := by
    rw [List.length_cons, List.length_singleton]
    decide
  simp only [twoWordHashNoinitBj, wordarrHashNoinitBj, wordarrHashLoop]
  rw [count, show (0 : Word) + d0 = d0 from BitVec.zero_add d0, show (0 : Word) + d1 = d1 from BitVec.zero_add d1]

end Culibs.Cu
