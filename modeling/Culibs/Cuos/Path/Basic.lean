/-! File names of `cuos/path.c`: the recogniser and the normaliser. Pointers into a string are the bytes from there to
the end. -/

namespace Culibs.Cuos

abbrev Byte := UInt8

def slash : Byte := 0x2f

def dot : Byte := 0x2e

/-- The component `..`. -/
def up : List Byte := [dot, dot]

/-! The grammar of `cuos/path.h`. -/

/-- `non_special_comp`. -/
def NonSpecial (comp : List Byte) : Prop := slash ∉ comp ∧ comp ≠ [] ∧ comp ≠ [dot] ∧ comp ≠ up

def joined (comps : List (List Byte)) : List Byte := [slash].intercalate comps

/-- `relative_NFN`. -/
inductive RelativeNfn : List Byte → Prop where
  | here : RelativeNfn [dot]
  | ups (k : Nat) : RelativeNfn (joined (List.replicate (k + 1) up))
  | names (k : Nat) (comps : List (List Byte)) (nonempty : comps ≠ []) (ordinary : ∀ comp ∈ comps, NonSpecial comp) :
    RelativeNfn (joined (List.replicate k up ++ comps))

/-- `absolute_NFN`. -/
inductive AbsoluteNfn : List Byte → Prop where
  | root : AbsoluteNfn [slash]
  | names (comps : List (List Byte)) (nonempty : comps ≠ []) (ordinary : ∀ comp ∈ comps, NonSpecial comp) :
    AbsoluteNfn (comps.flatMap (slash :: ·))

/-- `NFN`, a normalised file name. -/
def Nfn (s : List Byte) : Prop := RelativeNfn s ∨ AbsoluteNfn s

/-- The components that are neither empty nor `.`. -/
def components (s : List Byte) : List (List Byte) :=
  (s.splitOn slash).filter fun comp => comp ≠ [] ∧ comp ≠ [dot]

/-- Cancels `..` with the component before, if there is one. The components that remain come last first, after a number
of `..`. -/
def cancel (state : Nat × List (List Byte)) (comp : List Byte) : Nat × List (List Byte) :=
  if comp = up then
    match state with
    | (ups, []) => (ups + 1, [])
    | (ups, _ :: names) => (ups, names)
  else (state.1, comp :: state.2)

def cancelled (s : List Byte) : Nat × List (List Byte) := (components s).foldl cancel (0, [])

def IsAbs (s : List Byte) : Prop := s.head? = some slash

instance (s : List Byte) : Decidable (IsAbs s) := inferInstanceAs (Decidable (_ = _))

/-- There are more `..` than other components in some prefix of the components. -/
def Climbs (s : List Byte) : Prop :=
  ∃ comps, comps <+: components s ∧ comps.countP (· ≠ up) < comps.countP (· = up)

/-- The normalised file name, for a string that has one. -/
def normalised (s : List Byte) : List Byte :=
  if IsAbs s then slash :: joined (cancelled s).2.reverse
  else if cancelled s = (0, []) then [dot]
  else joined (List.replicate (cancelled s).1 up ++ (cancelled s).2.reverse)

/-- The loop over `../` at the start. -/
def skipUps : List Byte → List Byte
  | b0 :: b1 :: b2 :: s => if b0 = dot ∧ b1 = dot ∧ b2 = slash then skipUps s else b0 :: b1 :: b2 :: s
  | s => s

/-- The test for `.` and `..` at the start of a component. -/
def afterDots : List Byte → Option (List Byte)
  | [] => some []
  | b0 :: s =>
    if b0 = dot then
      match s with
      | [] => none
      | b1 :: s' =>
        if b1 = slash then none
        else if b1 = dot then
          match s' with
          | [] => none
          | b2 :: _ => if b2 = slash then none else some s'
        else some s
    else some (b0 :: s)

/-- The loop to the end of a component, and over the slash. There is no result at the end of the string. -/
def skipName : List Byte → Option (List Byte)
  | [] => none
  | b :: s => if b = slash then some s else skipName s

variable {s t : List Byte}

theorem skipName_length (found : skipName s = some t) : t.length < s.length := by
  induction s with
  | nil => cases found
  | cons b s ih =>
    rw [skipName] at found
    split at found
    · cases found
      exact Nat.lt_succ_self _
    · exact Nat.lt_succ_of_lt (ih found)

theorem afterDots_length (found : afterDots s = some t) : t.length ≤ s.length := by
  rw [afterDots.eq_def] at found
  grind

/-- The loop over the components. -/
def isComps (s : List Byte) : Bool :=
  if s = [] then true
  else
    match _dots : afterDots s with
    | none => false
    | some s' =>
      match _name : skipName s' with
      | none => true
      | some t => if t.head? = some slash then false else isComps t
termination_by s.length
decreasing_by exact Nat.lt_of_lt_of_le (skipName_length _name) (afterDots_length _dots)

/-- `cuos_is_path_charr`. -/
def isPathCharr (s : List Byte) : Bool :=
  if s = [] then false
  else if s = [dot] ∨ s = [slash] then true
  else if s.getLast? = some slash then false
  else
    let s := skipUps s
    if s = up then true else isComps s

/-- The loop that strips `/` and `./` at the start. -/
def stripLeading : List Byte → List Byte
  | [] => []
  | [b0] => if b0 = slash then [] else [b0]
  | b0 :: b1 :: s =>
    if b0 = slash then stripLeading (b1 :: s)
    else if b0 = dot ∧ b1 = slash then stripLeading s
    else b0 :: b1 :: s

/-- The loop that strips at the end, over the bytes from the last. It looks at the bytes `s[-1]` and `s[-2]`, which are
outside the string if less than that have been passed. The first result tells whether one of these has been read. -/
def stripTrailing (passed : Nat) (preceding : Nat → Byte) : List Byte → Bool × List Byte
  | [] => (false, [])
  | [b] => (false, if b = slash then [] else [b])
  | b :: b' :: rest =>
    if b = slash then stripTrailing passed preceding (b' :: rest)
    else
      let outside := decide (passed < if preceding 1 = dot then 2 else 1)
      if preceding 1 = dot ∧ preceding 2 = slash then
        let (outside', rest) := stripTrailing passed preceding rest
        (outside || outside', rest)
      else (outside, b :: b' :: rest)

def skipSlashes : List Byte → List Byte
  | [] => []
  | b :: s => if b = slash then skipSlashes s else b :: s

/-- The stack of components, the last first, and `top_up`. -/
structure Found where
  stack : List (List Byte)
  topUp : Nat
deriving DecidableEq

/-- How the extraction of components ends: after reading the byte after the last, returning `NULL`, or with the
components. -/
inductive Extracted where
  | beyond
  | null
  | found (found : Found)
deriving DecidableEq

/-- What is done about `..`. There is no result where `NULL` is returned. -/
def goUp (isAbs : Bool) (found : Found) : Option Found :=
  match found.stack with
  | _ :: stack => some { found with stack }
  | [] => if isAbs then none else some { found with topUp := found.topUp + 1 }

theorem skipSlashes_length (s : List Byte) : (skipSlashes s).length ≤ s.length := by
  induction s with
  | nil => exact Nat.le_refl _
  | cons b s ih =>
    rw [skipSlashes]
    split
    · exact Nat.le_succ_of_le ih
    · exact Nat.le_refl _

/-- The bytes before the next slash, and those after it. -/
def splitName : List Byte → List Byte × List Byte
  | [] => ([], [])
  | b :: s => if b = slash then ([], b :: s) else (b :: (splitName s).1, (splitName s).2)

theorem skipSlashes_splitName_length (more : (splitName s).2 ≠ []) :
    (skipSlashes (splitName s).2).length < s.length := by
  induction s with
  | nil => exact absurd rfl more
  | cons b s ih =>
    rw [splitName] at more ⊢
    by_cases here : b = slash
    · rw [if_pos here, skipSlashes, if_pos here]
      exact Nat.lt_succ_of_le (skipSlashes_length s)
    · rw [if_neg here] at more ⊢
      exact Nat.lt_succ_of_lt (ih more)

/-- The loop that extracts the components. -/
def extract (isAbs : Bool) (s : List Byte) (found : Found) : Extracted :=
  match s with
  | [] => .beyond
  | b0 :: t =>
    if b0 = dot ∧ t = [] then .found found
    else if b0 = dot ∧ t.head? = some slash then extract isAbs (skipSlashes t) found
    else if b0 = dot ∧ t = [dot] then
      match goUp isAbs found with
      | none => .null
      | some found => .found found
    else if b0 = dot ∧ t.take 2 = [dot, slash] then
      if skipSlashes t.tail = [] then .beyond
      else
        match goUp isAbs found with
        | none => .null
        | some found => extract isAbs (skipSlashes t.tail) found
    else if (splitName (b0 :: t)).2 = [] then .found { found with stack := (splitName (b0 :: t)).1 :: found.stack }
    else
      extract isAbs (skipSlashes (splitName (b0 :: t)).2)
        { found with stack := (splitName (b0 :: t)).1 :: found.stack }
termination_by s.length
decreasing_by
  · exact Nat.lt_succ_of_le (skipSlashes_length t)
  · refine Nat.lt_succ_of_le (Nat.le_trans (skipSlashes_length t.tail) ?_)
    rw [List.length_tail]
    exact Nat.sub_le ..
  · exact skipSlashes_splitName_length ‹_›

/-- The components after those that a path starts with. -/
def appendComps (path : List Byte) : List (List Byte) → List Byte
  | [] => path
  | comp :: comps => comps.foldl (fun path comp => path ++ [slash] ++ comp) (path ++ comp)

/-- The normalised file name of the components. -/
def compose (isAbs : Bool) (found : Found) : List Byte :=
  if isAbs then appendComps [slash] found.stack.reverse
  else if found.stack = [] then
    if found.topUp ≠ 0 then up ++ (List.replicate (found.topUp - 1) (slash :: up)).flatten else [dot]
  else appendComps (List.replicate found.topUp (up ++ [slash])).flatten found.stack.reverse

/-- `cuos_path_from_charr`, given what is in memory before the string. The first result tells whether a byte outside the
string has been read. -/
def pathFromCharr (before : Nat → Byte) (s : List Byte) : Bool × Option (List Byte) :=
  if s = [] then (false, none)
  else if s = [slash] then (false, some [slash])
  else
    let isAbs := decide (IsAbs s)
    let s1 := stripLeading (if isAbs then s.tail else s)
    let passed := s.length - s1.length
    let preceding i := if i ≤ passed then s.getD (passed - i) 0 else before (i - passed - 1)
    let (outside, rev) := stripTrailing passed preceding s1.reverse
    if rev = [] then (outside, some (if isAbs then [slash] else [dot]))
    else
      match extract isAbs rev.reverse { stack := [], topUp := 0 } with
      | .beyond => (true, none)
      | .null => (outside, none)
      | .found found => (outside, some (compose isAbs found))

end Culibs.Cuos
