import Mathlib.Tactic

/-!
# Paged B+ trees

A B+ tree of uniform height over any key type with a transitive comparison.
Every node carries the page id it is stored under.  Splits are driven by a
`Split`, which says which key lists fit a page and where an overflowing one is
cut; nothing else about sizes is known here.
-/

namespace BPlusTree

structure Leaf (ι K V : Type) where
  id : ι
  cells : List (K × V)

/-- The child `first` is left of all separators, the child of a cell is right of
its separator. -/
structure Branch (ι K T : Type) where
  id : ι
  first : T
  rest : List (K × T)

def LevelTree (ι K V : Type) : ℕ → Type
  | 0 => Leaf ι K V
  | h + 1 => Branch ι K (LevelTree ι K V h)

/-- Which key lists fit a node, and where one that does not is cut after an
insertion. -/
structure Split (K : Type) (ok : K → Prop) where
  fits : List K → Bool
  cut : List K → ℕ → ℕ
  fits_of_sublist : ∀ {xs ys : List K}, xs.Sublist ys → fits ys = true → fits xs = true
  fits_singleton : ∀ {k : K}, ok k → fits [k] = true
  cut_spec : ∀ {ks : List K} {i : ℕ} {k : K}, (∀ x ∈ ks, ok x) → ok k → i ≤ ks.length →
    fits ks = true → fits (ks.insertIdx i k) = false →
    1 ≤ cut (ks.insertIdx i k) i ∧ cut (ks.insertIdx i k) i ≤ ks.length ∧
      fits ((ks.insertIdx i k).take (cut (ks.insertIdx i k) i)) = true ∧
      fits ((ks.insertIdx i k).drop (cut (ks.insertIdx i k) i)) = true

structure Layout (K : Type) where
  ok : K → Prop
  leaf : Split K ok
  branch : Split K ok

variable {ι K V T : Type}

/-! ## Children by position -/

/-- The child with the given number of separators to its left. -/
def child : ℕ → T → List (K × T) → T
  | 0, first, _ => first
  | _ + 1, first, [] => first
  | i + 1, _, (_, c) :: rest => child i c rest

/-- Put `t` for the child `i`, followed by the cells `ts`. -/
def splice : ℕ → T → List (K × T) → T → List (K × T) → T × List (K × T)
  | 0, t, ts, _, rest => (t, ts ++ rest)
  | _ + 1, _, _, first, [] => (first, [])
  | i + 1, t, ts, first, (k, c) :: rest =>
    (first, (k, (splice i t ts c rest).1) :: (splice i t ts c rest).2)

def setChild (i : ℕ) (t first : T) (rest : List (K × T)) : T × List (K × T) :=
  splice i t [] first rest

def partitionPoint {α : Type} (p : α → Bool) (xs : List α) : ℕ := (xs.takeWhile p).length

namespace LevelTree

def root : {h : ℕ} → LevelTree ι K V h → ι
  | 0, ⟨id, _⟩ => id
  | _ + 1, ⟨id, _, _⟩ => id

/-- The cells in key order. -/
def toList : {h : ℕ} → LevelTree ι K V h → List (K × V)
  | 0, ⟨_, cells⟩ => cells
  | _ + 1, ⟨_, first, rest⟩ => first.toList ++ rest.flatMap fun c => c.2.toList

/-- The pages of the tree. -/
def pages : {h : ℕ} → LevelTree ι K V h → List ι
  | 0, ⟨id, _⟩ => [id]
  | _ + 1, ⟨id, first, rest⟩ => id :: (first.pages ++ rest.flatMap fun c => c.2.pages)

end LevelTree

/-! ## Operations -/

section Operations

variable (cmp : K → K → Ordering)

/-- How many cells are not above `key`. -/
def upper (key : K) (cells : List (K × T)) : ℕ :=
  partitionPoint (fun c => cmp c.1 key != .gt) cells

/-- How many cells are below `key`. -/
def lower (key : K) (cells : List (K × T)) : ℕ :=
  partitionPoint (fun c => cmp c.1 key == .lt) cells

namespace LevelTree

section Insert

variable (L : Layout K) (fresh : ℕ → ι) (unique : Bool) (key : K) (val : V)

/-- The right half of a cut leaf with the separator it is announced by. -/
def rightLeaf (id : ι) : List (K × V) → Option (K × LevelTree ι K V 0)
  | [] => none
  | (k, v) :: cells => some (k, (⟨id, (k, v) :: cells⟩ : Leaf ι K V))

/-- The right half of a cut branch; its first separator moves up. -/
def rightBranch {h : ℕ} (id : ι) :
    List (K × LevelTree ι K V h) → Option (K × LevelTree ι K V (h + 1))
  | [] => none
  | (k, c) :: rest => some (k, (⟨id, c, rest⟩ : Branch ι K (LevelTree ι K V h)))

/-- `none` when the key is a duplicate; otherwise the tree and, if it was cut,
its new right sibling.  A cut node of height `h` takes the page `fresh h`. -/
def insertRec : {h : ℕ} → LevelTree ι K V h → Option (LevelTree ι K V h × Option (K × LevelTree ι K V h))
  | 0, ⟨id, cells⟩ =>
    let i := upper cmp key cells
    if unique && (cells.take i).getLast?.any fun c => cmp c.1 key == .eq then none
    else
      let cells' := cells.insertIdx i (key, val)
      if L.leaf.fits (cells'.map Prod.fst) then some ((⟨id, cells'⟩ : Leaf ι K V), none)
      else
        let m := L.leaf.cut (cells'.map Prod.fst) i
        some ((⟨id, cells'.take m⟩ : Leaf ι K V), rightLeaf (fresh 0) (cells'.drop m))
  | h + 1, ⟨id, first, rest⟩ =>
    let i := upper cmp key rest
    match insertRec (child i first rest) with
    | none => none
    | some (t, none) =>
      let n := setChild i t first rest
      some ((⟨id, n.1, n.2⟩ : Branch ι K (LevelTree ι K V h)), none)
    | some (t, some (mid, right)) =>
      let n := setChild i t first rest
      let j := upper cmp mid rest
      let rest' := n.2.insertIdx j (mid, right)
      if L.branch.fits (rest'.map Prod.fst) then
        some ((⟨id, n.1, rest'⟩ : Branch ι K (LevelTree ι K V h)), none)
      else
        let m := L.branch.cut (rest'.map Prod.fst) j
        some ((⟨id, n.1, rest'.take m⟩ : Branch ι K (LevelTree ι K V h)),
          rightBranch (fresh (h + 1)) (rest'.drop m))

/-- Insertion at the root, which grows a new root over a cut one. -/
def insert {h : ℕ} (t : LevelTree ι K V h) : Option (Σ h, LevelTree ι K V h) :=
  match insertRec cmp L fresh unique key val t with
  | none => none
  | some (t', none) => some ⟨h, t'⟩
  | some (t', some (mid, right)) =>
    some ⟨h + 1, (⟨fresh (h + 1), t', [(mid, right)]⟩ : Branch ι K (LevelTree ι K V h))⟩

/-- The separator an insertion would pass up to the parent, read off the keys
alone. -/
def promoted : {h : ℕ} → LevelTree ι K V h → Option K
  | 0, ⟨_, cells⟩ =>
    let i := upper cmp key cells
    let keys := (cells.map Prod.fst).insertIdx i key
    if L.leaf.fits keys then none else (keys.drop (L.leaf.cut keys i)).head?
  | _ + 1, ⟨_, first, rest⟩ =>
    match promoted (child (upper cmp key rest) first rest) with
    | none => none
    | some mid =>
      let j := upper cmp mid rest
      let keys := (rest.map Prod.fst).insertIdx j mid
      if L.branch.fits keys then none else (keys.drop (L.branch.cut keys j)).head?

/-- No separator passed up is equal to the separator that follows the node it
comes from. -/
def SplitsInPlace : {h : ℕ} → LevelTree ι K V h → Prop
  | 0, _ => True
  | _ + 1, ⟨_, first, rest⟩ =>
    let i := upper cmp key rest
    SplitsInPlace (child i first rest) ∧
      ∀ mid ∈ promoted cmp L key (child i first rest),
        ∀ c ∈ rest[i]?, cmp mid c.1 ≠ .eq

end Insert

/-- The locator stored under a key equal to `key`: the rightmost child that can
hold it first, then the children left of it. -/
def get (key : K) : {h : ℕ} → LevelTree ι K V h → Option V
  | 0, ⟨_, cells⟩ =>
    match cells.drop (lower cmp key cells) with
    | [] => none
    | (k, v) :: _ => if cmp k key = .eq then some v else none
  | _ + 1, ⟨_, first, rest⟩ =>
    let s := lower cmp key rest
    let g := upper cmp key rest
    (get key (child g first rest)).or
      ((if s = 0 ∧ g ≠ 0 then get key first else none).or
        (((rest.take (g - 1)).drop (s - 1)).findSome? fun c => get key c.2))

/-- The children a key may live in, the routed one first. -/
def candidates (key : K) (rest : List (K × T)) : List ℕ :=
  let g := upper cmp key rest
  g :: ((if (rest.head?.all fun c => cmp c.1 key != .lt) && g != 0 then [0] else []) ++
    ((List.range rest.length).filter fun i =>
      i + 1 != g && (rest[i]?.any fun c => cmp c.1 key != .gt) &&
        (rest[i + 1]?.all fun c => cmp c.1 key != .lt)).map (· + 1))

/-- Deletion by a leaf matcher, which returns the remaining cells on success. -/
def deleteRec (key : K) (leafMatch : List (K × V) → Option (List (K × V))) :
    {h : ℕ} → LevelTree ι K V h → Option (LevelTree ι K V h)
  | 0, ⟨id, cells⟩ => (leafMatch cells).map fun cells' => (⟨id, cells'⟩ : Leaf ι K V)
  | h + 1, ⟨id, first, rest⟩ =>
    (candidates cmp key rest).findSome? fun i =>
      (deleteRec key leafMatch (child i first rest)).map fun t =>
        let n := setChild i t first rest
        (⟨id, n.1, n.2⟩ : Branch ι K (LevelTree ι K V h))

end LevelTree

end Operations

end BPlusTree
