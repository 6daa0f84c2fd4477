import Culibs.Cucon.Rbtree.Contents

namespace Culibs.Cucon.Rbtree

open ColourTree

variable {α : Type} {heap : Heap α} {rest path : Path α} {t : Tree α}

section Changes

theorem In.unique (held : In heap t) (held' : In heap t') (same : ptr t = ptr t') : t = t' := by
  induction t generalizing t' with
  | nil => exact (held'.ptr_eq_zero.mp same.symm).symm
  | node word val left right ihLeft ihRight =>
    cases t' with
    | nil => exact absurd same held.1
    | node word' val' left' right' =>
      obtain ⟨_, contents, inLeft, inRight⟩ := held
      obtain ⟨_, contents', inLeft', inRight'⟩ := held'
      have sameAddr : val.1 = val'.1 := same
      rw [sameAddr, contents'] at contents
      obtain ⟨sameWord, sameLeft, sameRight, sameMem⟩ := Rbnode.mk.inj contents
      rw [ihLeft inLeft inLeft' sameLeft.symm, ihRight inRight inRight' sameRight.symm, sameWord,
        Prod.ext sameAddr sameMem.symm]

theorem In.focus (held : In heap t) (mem : a ∈ addrs t) :
    ∃ path sub, plug path sub = t ∧ In heap sub ∧ ptr sub = a := by
  induction t with
  | nil => cases mem
  | node word val left right ihLeft ihRight =>
    have ⟨_, _, inLeft, inRight⟩ := held
    rcases (@mem_addrs_build _ .left ..).mp mem with rfl | mem | mem
    · exact ⟨[], _, rfl, held, rfl⟩
    · obtain ⟨path, sub, whole, held', isAddr⟩ := ihLeft inLeft mem
      exact ⟨path ++ [⟨.left, word, val, right⟩], sub, by rw [plug_append, whole]; rfl, held', isAddr⟩
    · obtain ⟨path, sub, whole, held', isAddr⟩ := ihRight inRight mem
      exact ⟨path ++ [⟨.right, word, val, left⟩], sub, by rw [plug_append, whole]; rfl, held', isAddr⟩

private theorem size_plug_cons (frame : Frame (Nat × α)) (rest : Path α) (t : Tree α) :
    (plug (frame :: rest) t).size = t.size + frame.sibling.size + 1 + ((before rest).length + (after rest).length) := by
  rw [← length_inorder, plug_cons, inorder_plug]
  obtain ⟨side, word, val, sibling⟩ := frame
  cases side <;> simp only [Frame.plug, build, inorder, List.length_append, List.length_cons, length_inorder] <;> omega

private theorem not_balanced_nil {frame : Frame (Nat × α)} (empty : frame.sibling = nil) (black : rootWord t ≠ 0) (n : Nat) :
    ¬ Balanced (frame.plug t) n := by
  intro balanced
  have level {m : Nat} (balanced : Balanced t m) : m ≠ 0 := by
    cases t with
    | nil => exact absurd rfl black
    | node word val left right =>
      have black' : word ≠ 0 := black
      rw [ColourTree.Balanced, if_neg black'] at balanced
      obtain ⟨m, rfl, _⟩ := balanced
      exact Nat.succ_ne_zero m
  rw [Frame.plug, empty] at balanced
  by_cases red : frame.word = 0
  · rw [red, balanced_red] at balanced
    exact level balanced.2.2.1 balanced.2.2.2
  · obtain ⟨m, _, inner, isZero⟩ := (balanced_black red).mp balanced
    exact level inner isZero

theorem changed_of_grown (held : Held heap root t)
    (held' : Held heap' root' t')
    (some : t ≠ nil) (kept : addrs t ⊆ addrs t') (grown : t'.size = t.size + 1) :
    ∃ a ∈ addrs t, heap'.cell a ≠ heap.cell a := by
  by_contra unchanged
  push Not at unchanged
  have below : In heap' t := held.focused.subtree.congr unchanged
  have mem := ptr_mem fun zero => some (below.ptr_eq_zero.mp zero)
  obtain ⟨path, sub, whole, inSub, isAddr⟩ := held'.focused.subtree.focus (kept mem)
  obtain rfl := inSub.unique below isAddr
  have black : rootWord sub ≠ 0 := by
    rw [held.sized]
    cases sub with
    | nil => exact absurd rfl some
    | node => exact Nat.succ_ne_zero _
  obtain ⟨n, balanced⟩ := held'.balanced
  rw [← whole] at balanced grown
  cases path with
  | nil => exact absurd grown (ne_of_lt (Nat.lt_succ_self _))
  | cons frame rest =>
    rw [size_plug_cons] at grown
    have empty : frame.sibling = nil := by
      cases shape : frame.sibling with
      | nil => rfl
      | node word val left right =>
        rw [shape, ColourTree.size] at grown
        omega
    cases rest with
    | nil => exact not_balanced_nil empty black n balanced
    | cons outer rest =>
      have more := size_plug_cons outer rest sub
      rw [← length_inorder, inorder_plug, List.length_append, List.length_append, length_inorder] at more
      omega

end Changes

end Culibs.Cucon.Rbtree
