import Docsql.EncodeRoundTrip
import Docsql.Sql.Authorize

/-!
# Column lists and row filters

`resolve_grants` turns the grants of a user into one column list and one list of
filters for each table.  A single-table SELECT is checked against the first and
rewritten with the second, so a grant takes part with its columns and its rows apart
from each other.
-/

namespace Docsql.Sql

inductive TablePriv where
  | select
  | insert
  | update
  | delete
deriving DecidableEq

def TablePriv.bit : TablePriv → UInt8
  | .select => privSelect
  | .insert => 2
  | .update => 4
  | .delete => 8

/-- A stored column list is never empty. -/
structure ColumnList where
  names : List String
  nonempty : names ≠ []

structure Grant where
  grantee : String
  priv : TablePriv := .select
  tbl : String
  cols : Option ColumnList := none
  filter : Option String := none

/-- The tables of users, role members and grants. -/
structure UserStore where
  users : List String
  /-- Role and member. -/
  members : List (String × String) := []
  grants : List Grant := []

structure FilteredGrants extends UserGrants where
  rowFilters : List (String × List String) := []

/-! ## Resolution -/

/-- `entry(k).or_default()` of a `BTreeMap`, changed by `f`. -/
def atEntry {α : Type} (k : String) (default : α) (f : α → α) (m : List (String × α)) :
    List (String × α) :=
  insertField k (f ((m.lookup k).getD default)) m

/-- Columns that are not in the list yet, whatever their case. -/
def addColumns (names granted : List String) : List String :=
  names.foldl (fun acc c => if acc.any fun x => eqIgnoreAsciiCase x c then acc else acc ++ [c])
    granted

structure Resolving where
  privs : List (String × UInt8) := []
  cols : List (String × List String) := []
  filters : List (String × List String) := []
  unrestricted : List String := []

def addGrant (blanket : Bool) (acc : Resolving) (g : Grant) : Resolving :=
  let acc := { acc with privs := atEntry g.tbl 0 (· ||| g.priv.bit) acc.privs }
  if blanket then acc
  else if g.priv = .select then
    let acc := match g.filter with
      | some pred => { acc with filters := atEntry g.tbl [] (· ++ [pred]) acc.filters }
      | none => acc
    let acc := match g.cols with
      | some list => { acc with cols := atEntry g.tbl [] (addColumns list.names) acc.cols }
      | none => acc
    if g.cols.isNone && g.filter.isNone then
      { acc with unrestricted := g.tbl :: acc.unrestricted }
    else acc
  else acc

def rolesOf (store : UserStore) (name : String) : List String :=
  (store.members.filter fun m => m.2 = name).map Prod.fst ++ [name]

/-- The grants a user holds, directly or through a role. -/
def heldGrants (store : UserStore) (name : String) : List Grant :=
  store.grants.filter fun g => g.grantee ∈ rolesOf store name

/-- The grants of the user `name`, which is in lower case. -/
def resolveGrants (store : UserStore) (name : String) : Option FilteredGrants :=
  if name ∈ store.users then
    let roles := rolesOf store name
    let readonly := decide ("readonly" ∈ roles)
    let readwrite := decide ("readwrite" ∈ roles)
    let acc := (heldGrants store name).foldl (addGrant (readonly || readwrite)) {}
    some {
      admin := decide ("admin" ∈ roles)
      readwrite := readwrite
      readonly := readonly
      tablePrivs := acc.privs
      tableCols := acc.cols.filter fun p => p.1 ∉ acc.unrestricted
      rowFilters := acc.filters.filter fun p => p.1 ∉ acc.unrestricted }
  else none

/-! ## Single-table selects -/

/-- SQL's OR. -/
def or3 : Option Bool → Option Bool → Option Bool
  | some true, _ | _, some true => some true
  | some false, some false => some false
  | _, _ => none

section Select

variable {R : Type} (eval : String → R → Option Bool)

/-- The first filter, then the others from the last one on, joined by OR. -/
def orJoined (preds : List String) (r : R) : Option Bool :=
  match preds with
  | [] => none
  | p :: rest => rest.reverse.foldl (fun acc q => or3 acc (eval q r)) (eval p r)

/-- The condition `apply_row_filters` adds. -/
def rowAllowed (g : FilteredGrants) (table : String) (r : R) : Bool :=
  match g.rowFilters.find? fun p => eqIgnoreAsciiCase p.1 table with
  | some p => orJoined eval p.2 r = some true
  | none => true

/-- `SELECT column FROM table` with further columns and a condition. -/
structure SingleSelect (R : Type) where
  table : String
  column : String
  refs : List String := []
  keep : R → Bool := fun _ => true

/-- The rows of which the column is returned. -/
def runSelect (g : FilteredGrants) (s : SingleSelect R) (rows : List R) :
    Except String (List R) :=
  if g.admin then .ok (rows.filter s.keep)
  else do
    checkTarget g.toUserGrants s.table
    checkColumns g.toUserGrants (some (s.table, s.column :: s.refs)) [s.table]
    return rows.filter fun r => s.keep r && rowAllowed eval g s.table r

/-- Some SELECT of the column returns its value in the row. -/
def CanReturn (g : FilteredGrants) (rows : List R) (t c : String) (r : R) : Prop :=
  ∃ s : SingleSelect R, s.table = t ∧ s.column = c ∧
    ∃ out, runSelect eval g s rows = .ok out ∧ r ∈ out

end Select

/-! ## What resolution keeps of the grants -/

section Collect

variable {α β : Type}

/-- One entry for each table: what `sel` picks from its grants, put in by `f`. -/
def collect (sel : Grant → Option β) (f : β → α → α) (default : α) (held : List Grant) :
    List (String × α) :=
  held.foldl (fun m g => match sel g with
    | some x => atEntry g.tbl default (f x) m
    | none => m) []

/-- What `sel` picks from the grants on a table. -/
def picked (sel : Grant → Option β) (held : List Grant) (k : String) : List β :=
  (held.filter fun g => g.tbl = k).filterMap sel

theorem picked_snoc (sel : Grant → Option β) (held : List Grant) (g : Grant) (k : String) :
    picked sel (held ++ [g]) k = picked sel held k ++
      if g.tbl = k then (sel g).toList else [] := by
  rw [picked, List.filter_append, List.filterMap_append]
  congr 1
  by_cases hk : g.tbl = k
  · rw [if_pos hk, List.filter_cons_of_pos (by simpa using hk)]
    cases hsel : sel g with
    | none => simp [hsel]
    | some x => simp [hsel]
  · rw [if_neg hk, List.filter_cons_of_neg (by simpa using hk)]
    rfl

theorem mem_picked {sel : Grant → Option β} {held : List Grant} {k : String} {x : β} :
    x ∈ picked sel held k ↔ ∃ g ∈ held, g.tbl = k ∧ sel g = some x := by
  simp [picked, and_assoc]

theorem lookup_collect (sel : Grant → Option β) (f : β → α → α) (default : α)
    (held : List Grant) (k : String) :
    (collect sel f default held).lookup k =
      if picked sel held k = [] then none
      else some ((picked sel held k).foldl (fun acc x => f x acc) default) := by
  induction held using List.reverseRecOn with
  | nil => rfl
  | append_singleton held g ih =>
    rw [collect, List.foldl_append, ← collect, picked_snoc]
    cases hsel : sel g with
    | none => simp [hsel, ih]
    | some x =>
      simp only [List.foldl_cons, List.foldl_nil, hsel, atEntry, lookup_insertField]
      by_cases hk : k = g.tbl
      · rw [if_pos hk, if_pos hk.symm, ← hk, ih]
        by_cases hempty : picked sel held k = []
        · simp [hempty]
        · simp [hempty, List.foldl_append]
      · rw [if_neg hk, if_neg (Ne.symm hk), ih, List.append_nil]

theorem mem_collect {sel : Grant → Option β} {f : β → α → α} {default : α} {held : List Grant}
    {p : String × α} (h : p ∈ collect sel f default held) : ∃ g ∈ held, g.tbl = p.1 := by
  induction held using List.reverseRecOn with
  | nil => exact absurd h List.not_mem_nil
  | append_singleton held g ih =>
    rw [collect, List.foldl_append, ← collect] at h
    have hold (h : p ∈ collect sel f default held) : ∃ g' ∈ held ++ [g], g'.tbl = p.1 := by
      obtain ⟨g', hg', htbl⟩ := ih h
      exact ⟨g', List.mem_append_left _ hg', htbl⟩
    cases hsel : sel g with
    | none =>
      simp only [List.foldl_cons, List.foldl_nil, hsel] at h
      exact hold h
    | some x =>
      simp only [List.foldl_cons, List.foldl_nil, hsel] at h
      rcases mem_insertField h with rfl | h
      · exact ⟨g, List.mem_append_right _ (List.mem_singleton_self g), rfl⟩
      · exact hold h

end Collect

section Resolve

variable {g : Grant} {held : List Grant}

theorem addGrant_privs (acc : Resolving) (g : Grant) :
    (addGrant false acc g).privs = atEntry g.tbl 0 (· ||| g.priv.bit) acc.privs := by
  unfold addGrant
  cases g.filter <;> cases g.cols <;> dsimp only <;> split_ifs <;> rfl

theorem addGrant_cols (hg : g.priv = .select) (acc : Resolving) :
    (addGrant false acc g).cols = match g.cols with
      | some l => atEntry g.tbl [] (addColumns l.names) acc.cols
      | none => acc.cols := by
  unfold addGrant
  cases g.filter <;> cases g.cols <;> simp [hg]

theorem addGrant_filters (hg : g.priv = .select) (acc : Resolving) :
    (addGrant false acc g).filters = match g.filter with
      | some p => atEntry g.tbl [] (· ++ [p]) acc.filters
      | none => acc.filters := by
  unfold addGrant
  cases g.filter <;> cases g.cols <;> simp [hg]

theorem mem_addGrant_unrestricted (hg : g.priv = .select) (acc : Resolving) (k : String) :
    k ∈ (addGrant false acc g).unrestricted ↔
      k ∈ acc.unrestricted ∨ g.tbl = k ∧ g.cols = none ∧ g.filter = none := by
  unfold addGrant
  cases g.filter <;> cases g.cols <;> simp [hg, or_comm, eq_comm]

/-- Without a role for all tables, each part of the grants is collected by itself. -/
structure Collected (held : List Grant) (acc : Resolving) : Prop where
  privs : acc.privs = collect (fun g => some g.priv.bit) (fun b acc => acc ||| b) 0 held
  cols : acc.cols = collect Grant.cols (fun l acc => addColumns l.names acc) [] held
  filters : acc.filters = collect Grant.filter (fun p acc => acc ++ [p]) [] held
  unrestricted : ∀ k, k ∈ acc.unrestricted ↔
    ∃ g ∈ held, g.tbl = k ∧ g.cols = none ∧ g.filter = none

theorem collect_snoc {α β : Type} (sel : Grant → Option β) (f : β → α → α) (default : α)
    (held : List Grant) (g : Grant) :
    collect sel f default (held ++ [g]) = match sel g with
      | some x => atEntry g.tbl default (f x) (collect sel f default held)
      | none => collect sel f default held := by
  rw [collect, List.foldl_append]
  rfl

theorem collected_foldl (hselect : ∀ g ∈ held, g.priv = .select) :
    Collected held (held.foldl (addGrant false) {}) := by
  induction held using List.reverseRecOn with
  | nil => exact ⟨rfl, rfl, rfl, by simp⟩
  | append_singleton held g ih =>
    have hheld := ih fun g' hg' => hselect g' (List.mem_append_left _ hg')
    have hg : g.priv = .select := hselect g (by simp)
    rw [List.foldl_append, List.foldl_cons, List.foldl_nil]
    refine ⟨?_, ?_, ?_, fun k => ?_⟩
    · rw [addGrant_privs, hheld.privs, collect_snoc]
    · rw [addGrant_cols hg, hheld.cols, collect_snoc]
      cases g.cols <;> rfl
    · rw [addGrant_filters hg, hheld.filters, collect_snoc]
      cases g.filter <;> rfl
    · rw [mem_addGrant_unrestricted hg, hheld.unrestricted]
      simp only [List.mem_append, List.mem_singleton, or_and_right, exists_or, exists_eq_left]

end Resolve

/-! ## Access by code and by grant -/

/-- The column is in the list of the grant. -/
def Grant.lists (g : Grant) (c : String) : Bool :=
  g.cols.any fun l => l.names.any fun x => eqIgnoreAsciiCase x c

def Grant.covers (g : Grant) (c : String) : Bool := g.cols.isNone || g.lists c

/-- The row satisfies the filter of the grant. -/
def Grant.selects {R : Type} (eval : String → R → Option Bool) (g : Grant) (r : R) : Bool :=
  g.filter.any fun p => eval p r = some true

def Grant.admits {R : Type} (eval : String → R → Option Bool) (g : Grant) (r : R) : Bool :=
  g.filter.isNone || g.selects eval r

/-- One grant gives the column in the row. -/
def Granted {R : Type} (eval : String → R → Option Bool) (held : List Grant) (t c : String)
    (r : R) : Prop :=
  ∃ g ∈ held, g.tbl = t ∧ g.covers c = true ∧ g.admits eval r = true

section Access

variable {R : Type} {eval : String → R → Option Bool} {held : List Grant} {t : String}

theorem eqIgnoreAsciiCase_self (a : String) : eqIgnoreAsciiCase a a = true := beq_self_eq_true _

theorem find?_spelled {α : Type} {m : List (String × α)}
    (h : ∀ p ∈ m, eqIgnoreAsciiCase p.1 t = true → p.1 = t) :
    (m.find? fun p => eqIgnoreAsciiCase p.1 t) = (m.lookup t).map fun v => (t, v) := by
  induction m with
  | nil => rfl
  | cons p m ih =>
    obtain ⟨k, v⟩ := p
    obtain ⟨hp, hm⟩ := List.forall_mem_cons.1 h
    rw [List.lookup_cons]
    by_cases hk : t = k
    · rw [List.find?_cons_of_pos (by rw [hk]; exact eqIgnoreAsciiCase_self k), hk]
      simp
    · have hne : eqIgnoreAsciiCase k t = false :=
        Bool.eq_false_iff.2 fun heq => hk (hp heq).symm
      rw [List.find?_cons, hne, beq_false_of_ne hk]
      exact ih hm

theorem lookup_filter_keys {α : Type} (m : List (String × α)) (free : List String) (k : String) :
    (m.filter fun p => p.1 ∉ free).lookup k = if k ∈ free then none else m.lookup k := by
  induction m with
  | nil => simp
  | cons p m ih =>
    obtain ⟨k', v⟩ := p
    by_cases hfree : k' ∈ free
    · rw [List.filter_cons_of_neg (by simpa using hfree), ih, List.lookup_cons]
      by_cases hk : k = k'
      · rw [hk, if_pos hfree, if_pos hfree]
      · rw [beq_false_of_ne hk]
    · rw [List.filter_cons_of_pos (by simpa using hfree), List.lookup_cons, List.lookup_cons, ih]
      by_cases hk : k = k'
      · rw [hk, beq_self_eq_true]
        exact (if_neg hfree).symm
      · rw [beq_false_of_ne hk]

theorem any_addColumns (names granted : List String) (c : String) :
    ((addColumns names granted).any fun x => eqIgnoreAsciiCase x c) = true ↔
      (granted.any fun x => eqIgnoreAsciiCase x c) = true ∨
        (names.any fun x => eqIgnoreAsciiCase x c) = true := by
  induction names generalizing granted with
  | nil => simp [addColumns]
  | cons d names ih =>
    rw [addColumns, List.foldl_cons, ← addColumns, ih, List.any_cons, Bool.or_eq_true]
    split
    · rename_i hold
      -- A column that is not added again is one of another spelling in the list.
      obtain ⟨x, hx, hxd⟩ := List.any_eq_true.1 hold
      have hsame : eqIgnoreAsciiCase d c = true →
          (granted.any fun x => eqIgnoreAsciiCase x c) = true := fun hdc =>
        List.any_eq_true.2 ⟨x, hx, by
          rw [eqIgnoreAsciiCase, beq_iff_eq] at hxd hdc ⊢
          exact hxd.trans hdc⟩
      tauto
    · rw [List.any_append, Bool.or_eq_true]
      simp only [List.any_cons, List.any_nil, Bool.or_false]
      tauto

theorem any_foldl_addColumns (lists : List ColumnList) (granted : List String) (c : String) :
    ((lists.foldl (fun acc l => addColumns l.names acc) granted).any fun x =>
        eqIgnoreAsciiCase x c) = true ↔
      (granted.any fun x => eqIgnoreAsciiCase x c) = true ∨
        ∃ l ∈ lists, (l.names.any fun x => eqIgnoreAsciiCase x c) = true := by
  induction lists generalizing granted with
  | nil => simp
  | cons l lists ih =>
    rw [List.foldl_cons, ih, any_addColumns]
    simp only [List.mem_cons, exists_eq_or_imp, or_assoc]

theorem foldl_snoc_list {α : Type} (xs acc : List α) :
    xs.foldl (fun acc x => acc ++ [x]) acc = acc ++ xs := by
  induction xs generalizing acc with
  | nil => simp
  | cons x xs ih => rw [List.foldl_cons, ih, List.append_assoc, List.singleton_append]

theorem or3_eq_true {a b : Option Bool} : or3 a b = some true ↔ a = some true ∨ b = some true := by
  rcases a with _ | _ | _ <;> rcases b with _ | _ | _ <;> simp [or3]

theorem foldl_or3 {r : R} (preds : List String) (acc : Option Bool) :
    preds.foldl (fun acc q => or3 acc (eval q r)) acc = some true ↔
      acc = some true ∨ ∃ q ∈ preds, eval q r = some true := by
  induction preds generalizing acc with
  | nil => simp
  | cons q preds ih =>
    rw [List.foldl_cons, ih, or3_eq_true]
    simp only [List.mem_cons, exists_eq_or_imp, or_assoc]

theorem orJoined_eq_true {preds : List String} {r : R} :
    orJoined eval preds r = some true ↔ ∃ p ∈ preds, eval p r = some true := by
  cases preds with
  | nil => simp [orJoined]
  | cons p rest =>
    rw [orJoined, foldl_or3]
    simp only [List.mem_reverse, List.mem_cons, exists_eq_or_imp]

/-- No grant is on another table whose name differs in case only. -/
def OneSpelling (held : List Grant) (t : String) : Prop :=
  ∀ g ∈ held, eqIgnoreAsciiCase g.tbl t = true → g.tbl = t

/-- A grant without a list and a filter. -/
def Plain (held : List Grant) (t : String) : Prop :=
  ∃ g ∈ held, g.tbl = t ∧ g.cols = none ∧ g.filter = none

theorem picked_eq_nil {β : Type} {sel : Grant → Option β} :
    picked sel held t = [] ↔ ∀ g ∈ held, g.tbl = t → sel g = none := by
  rw [List.eq_nil_iff_forall_not_mem]
  simp only [mem_picked, not_exists, not_and]
  constructor
  · intro h g hg ht
    rw [Option.eq_none_iff_forall_ne_some]
    exact fun x => h x g hg ht
  · intro h x g hg ht hsel
    rw [h g hg ht] at hsel
    cases hsel

theorem exists_picked_iff {β : Type} (held : List Grant) (t : String) (sel : Grant → Option β)
    (p : β → Bool) :
    (∃ x ∈ picked sel held t, p x = true) ↔
      ∃ g ∈ held, g.tbl = t ∧ (sel g).any p = true := by
  constructor
  · rintro ⟨x, hx, hp⟩
    obtain ⟨g, hg, ht, hsel⟩ := mem_picked.1 hx
    exact ⟨g, hg, ht, (Option.any_eq_true p (sel g)).2 ⟨x, hsel, hp⟩⟩
  · rintro ⟨g, hg, ht, hany⟩
    obtain ⟨x, hsel, hp⟩ := (Option.any_eq_true p (sel g)).1 hany
    exact ⟨x, mem_picked.2 ⟨g, hg, ht, hsel⟩, hp⟩

/-- The columns a SELECT may name: all of them, or those in some list. -/
def ColumnsOpen (held : List Grant) (t c : String) : Prop :=
  Plain held t ∨ (∀ g ∈ held, g.tbl = t → g.cols = none) ∨
    ∃ g ∈ held, g.tbl = t ∧ g.lists c = true

/-- The rows a SELECT returns: all of them, or those some filter selects. -/
def RowsOpen (eval : String → R → Option Bool) (held : List Grant) (t : String) (r : R) : Prop :=
  Plain held t ∨ (∀ g ∈ held, g.tbl = t → g.filter = none) ∨
    ∃ g ∈ held, g.tbl = t ∧ g.selects eval r = true

section Resolved

variable {acc : Resolving} {g : FilteredGrants}

/-- The maps of a user without a role for all tables. -/
structure ResolvedFrom (held : List Grant) (acc : Resolving) (g : FilteredGrants) : Prop where
  collected : Collected held acc
  admin : g.admin = false
  readonly : g.readonly = false
  readwrite : g.readwrite = false
  privs : g.tablePrivs = acc.privs
  cols : g.tableCols = acc.cols.filter fun p => p.1 ∉ acc.unrestricted
  filters : g.rowFilters = acc.filters.filter fun p => p.1 ∉ acc.unrestricted

theorem find?_collect {α β : Type} (hone : OneSpelling held t) (sel : Grant → Option β)
    (f : β → α → α) (default : α) (free : List String) :
    (((collect sel f default held).filter fun p => p.1 ∉ free).find?
        fun p => eqIgnoreAsciiCase p.1 t) =
      if t ∈ free ∨ picked sel held t = [] then none
      else some (t, (picked sel held t).foldl (fun acc x => f x acc) default) := by
  rw [find?_spelled, lookup_filter_keys, lookup_collect]
  · by_cases hfree : t ∈ free
    · simp [hfree]
    · by_cases hempty : picked sel held t = []
      · simp [hfree, hempty]
      · simp [hfree, hempty]
  · intro p hp heq
    obtain ⟨g, hg, htbl⟩ := mem_collect (List.mem_of_mem_filter hp)
    rw [← htbl] at heq ⊢
    exact hone g hg heq

theorem foldl_bits {bits : List UInt8} (h : ∀ b ∈ bits, b = privSelect) :
    bits.foldl (fun acc b => acc ||| b) privSelect = privSelect := by
  induction bits with
  | nil => rfl
  | cons b bits ih =>
    obtain ⟨hb, hbits⟩ := List.forall_mem_cons.1 h
    rw [List.foldl_cons, hb]
    exact ih hbits

theorem ResolvedFrom.maySelect_iff (h : ResolvedFrom held acc g) (hone : OneSpelling held t)
    (hselect : ∀ g ∈ held, g.priv = .select) :
    g.maySelect t = true ↔ ∃ g ∈ held, g.tbl = t := by
  have hfind := find?_collect hone (fun g => some g.priv.bit) (fun b acc => acc ||| b) 0 []
  simp only [List.not_mem_nil, not_false_eq_true, decide_true, List.filter_true] at hfind
  rw [UserGrants.maySelect, h.readonly, h.readwrite, h.privs, h.collected.privs, hfind]
  simp only [false_or, Bool.false_or]
  have hbits : ∀ b ∈ picked (fun g => some g.priv.bit) held t, b = privSelect := by
    intro b hb
    obtain ⟨g, hg, -, hbit⟩ := mem_picked.1 hb
    rw [hselect g hg] at hbit
    exact (Option.some.inj hbit).symm
  cases hpicked : picked (fun g => some g.priv.bit) held t with
  | nil =>
    have hnone := picked_eq_nil.1 hpicked
    refine iff_of_false (by simp) ?_
    rintro ⟨g, hg, ht⟩
    exact absurd (hnone g hg ht) (by simp)
  | cons b bits =>
    rw [hpicked] at hbits
    obtain ⟨hb, hbits⟩ := List.forall_mem_cons.1 hbits
    obtain ⟨g, hg, ht, -⟩ := mem_picked.1 (hpicked ▸ List.mem_cons_self)
    refine iff_of_true ?_ ⟨g, hg, ht⟩
    rw [if_neg (List.cons_ne_nil b bits), List.foldl_cons, hb]
    show ((bits.foldl (fun acc b => acc ||| b) privSelect &&& privSelect) != 0) = true
    rw [foldl_bits hbits]
    decide

/-- The two ways in which a table has no entry in a map of restrictions. -/
theorem unlisted_iff {β : Type} (h : Collected held acc) {sel : Grant → Option β} :
    (t ∈ acc.unrestricted ∨ picked sel held t = []) ↔
      Plain held t ∨ ∀ g ∈ held, g.tbl = t → sel g = none := by
  rw [h.unrestricted, picked_eq_nil]
  rfl

theorem ResolvedFrom.columnsOpen_iff (h : ResolvedFrom held acc g) (hone : OneSpelling held t)
    (c : String) :
    (g.isRestrictedSelect t = true → ((g.grantedCols t).any fun x => eqIgnoreAsciiCase x c) =
      true) ↔ ColumnsOpen held t c := by
  have hfind := find?_collect hone Grant.cols (fun l acc => addColumns l.names acc) []
    acc.unrestricted
  rw [← h.collected.cols, ← h.cols] at hfind
  have hrestricted : g.isRestrictedSelect t =
      (g.tableCols.find? fun p => eqIgnoreAsciiCase p.1 t).isSome := by
    rw [UserGrants.isRestrictedSelect, List.isSome_find?]
  rw [hrestricted, UserGrants.grantedCols, hfind, ColumnsOpen, ← or_assoc,
    ← unlisted_iff h.collected]
  by_cases hopen : t ∈ acc.unrestricted ∨ picked Grant.cols held t = []
  · rw [if_pos hopen]
    exact iff_of_true (by simp) (.inl hopen)
  · rw [if_neg hopen, or_iff_right hopen]
    simp only [Option.isSome_some, forall_const, Option.map_some, Option.getD_some]
    rw [any_foldl_addColumns, or_iff_right (by simp), exists_picked_iff]
    rfl

theorem ResolvedFrom.rowAllowed_iff (h : ResolvedFrom held acc g) (hone : OneSpelling held t)
    (r : R) : rowAllowed eval g t r = true ↔ RowsOpen eval held t r := by
  have hfind := find?_collect hone Grant.filter (fun p acc => acc ++ [p]) [] acc.unrestricted
  rw [← h.collected.filters, ← h.filters] at hfind
  rw [rowAllowed, hfind, RowsOpen, ← or_assoc, ← unlisted_iff h.collected]
  by_cases hopen : t ∈ acc.unrestricted ∨ picked Grant.filter held t = []
  · rw [if_pos hopen]
    exact iff_of_true rfl (.inl hopen)
  · rw [if_neg hopen, or_iff_right hopen]
    simp only [decide_eq_true_eq]
    rw [foldl_snoc_list, List.nil_append, orJoined_eq_true]
    have hpicked := exists_picked_iff held t Grant.filter fun p => eval p r = some true
    simp only [decide_eq_true_eq] at hpicked
    exact hpicked

theorem checkTarget_iff {g : UserGrants} (huser : isUserTable t = false)
    (hall : readableByAll t = false) : checkTarget g t = .ok () ↔ g.maySelect t = true := by
  unfold checkTarget
  rw [huser, hall]
  cases g.maySelect t <;> simp

theorem forM_eq_ok {α : Type} {f : α → Except String Unit} {l : List α} :
    l.forM f = .ok () ↔ ∀ x ∈ l, f x = .ok () := by
  refine ⟨forM_ok, fun h => ?_⟩
  induction l with
  | nil => rfl
  | cons x l ih =>
    obtain ⟨hx, hl⟩ := List.forall_mem_cons.1 h
    show (f x >>= fun _ => l.forM f) = .ok ()
    rw [hx]
    exact ih hl

theorem checkColumns_iff {g : UserGrants} (cols : List String) :
    checkColumns g (some (t, cols)) [t] = .ok () ↔
      ∀ c ∈ cols, g.isRestrictedSelect t = true →
        ((g.grantedCols t).any fun x => eqIgnoreAsciiCase x c) = true := by
  unfold checkColumns
  have hcolumn (c : String) : checkColumn t (g.grantedCols t) c = .ok () ↔
      ((g.grantedCols t).any fun x => eqIgnoreAsciiCase x c) = true := by
    unfold checkColumn
    split <;> simp_all
  cases hrestricted : g.isRestrictedSelect t with
  | false => simp [hrestricted]
  | true =>
    simp only [List.any_cons, hrestricted, List.any_nil, Bool.or_false, if_true,
      List.filter_cons_of_pos, List.filter_nil, forall_const]
    rw [forM_eq_ok]
    simp only [List.mem_singleton, forall_eq, eqIgnoreAsciiCase_self, if_true]
    rw [forM_eq_ok]
    exact forall₂_congr fun c _ => hcolumn c

/-- The columns and the rows of a user are open by themselves. -/
theorem ResolvedFrom.canReturn_iff (h : ResolvedFrom held acc g) (hone : OneSpelling held t)
    (hselect : ∀ g ∈ held, g.priv = .select) (huser : isUserTable t = false)
    (hall : readableByAll t = false) (rows : List R) (c : String) (r : R) :
    CanReturn eval g rows t c r ↔
      r ∈ rows ∧ (∃ g ∈ held, g.tbl = t) ∧ ColumnsOpen held t c ∧ RowsOpen eval held t r := by
  have hrun (s : SingleSelect R) (hs : s.table = t) (out : List R) :
      runSelect eval g s rows = .ok out ↔
        checkTarget g.toUserGrants t = .ok () ∧
          checkColumns g.toUserGrants (some (t, s.column :: s.refs)) [t] = .ok () ∧
          (rows.filter fun r => s.keep r && rowAllowed eval g t r) = out := by
    unfold runSelect
    rw [h.admin, hs]
    simp only [Bool.false_eq_true, if_false, Except.bind_eq_ok_iff]
    constructor
    · rintro ⟨_, htarget, _, hcols, hout⟩
      exact ⟨htarget, hcols, Except.ok.inj hout⟩
    · rintro ⟨htarget, hcols, rfl⟩
      exact ⟨(), htarget, (), hcols, rfl⟩
  constructor
  · rintro ⟨s, hs, rfl, out, hok, hr⟩
    obtain ⟨htarget, hcols, rfl⟩ := (hrun s hs out).1 hok
    obtain ⟨hrows, hkept⟩ := List.mem_filter.1 hr
    have hallowed := (Bool.and_eq_true_iff.1 hkept).2
    rw [checkTarget_iff huser hall, h.maySelect_iff hone hselect] at htarget
    rw [checkColumns_iff] at hcols
    exact ⟨hrows, htarget, (h.columnsOpen_iff hone _).1 (hcols _ List.mem_cons_self),
      (h.rowAllowed_iff hone r).1 hallowed⟩
  · rintro ⟨hrows, hheld, hcolumn, hrow⟩
    refine ⟨⟨t, c, [], fun _ => true⟩, rfl, rfl, _, (hrun _ rfl _).2 ⟨?_, ?_, rfl⟩, ?_⟩
    · rw [checkTarget_iff huser hall, h.maySelect_iff hone hselect]
      exact hheld
    · rw [checkColumns_iff]
      intro c' hc'
      rw [List.mem_singleton.1 hc']
      exact (h.columnsOpen_iff hone c).2 hcolumn
    · exact List.mem_filter.2 ⟨hrows, (h.rowAllowed_iff hone r).2 hrow⟩

end Resolved

/-- The grants on a table whose columns and rows may be taken apart: one has neither a
list nor a filter, or no list or no filter is there at all, or the listed columns and
the selected rows are granted together and the other grants add nothing to them. -/
def Separable (eval : String → R → Option Bool) (held : List Grant) (t : String)
    (columns : List String) : Prop :=
  Plain held t ∨ (∀ g ∈ held, g.tbl = t → g.cols = none) ∨
    (∀ g ∈ held, g.tbl = t → g.filter = none) ∨
    (∀ g ∈ held, g.tbl = t → g.cols = none → ∀ r, g.selects eval r = true → ∀ c ∈ columns,
      ∃ g' ∈ held, g'.tbl = t ∧ g'.lists c = true) ∧
    (∀ g ∈ held, g.tbl = t → g.filter = none → ∀ c ∈ columns, g.lists c = true → ∀ r,
      ∃ g' ∈ held, g'.tbl = t ∧ g'.selects eval r = true) ∧
    ∀ c ∈ columns, ∀ r, (∃ g ∈ held, g.tbl = t ∧ g.lists c = true) →
      (∃ g ∈ held, g.tbl = t ∧ g.selects eval r = true) → Granted eval held t c r

theorem Grant.covers_iff {g : Grant} {c : String} :
    g.covers c = true ↔ g.cols = none ∨ g.lists c = true := by
  rw [Grant.covers, Bool.or_eq_true, Option.isNone_iff_eq_none]

theorem Grant.admits_iff {g : Grant} {r : R} :
    g.admits eval r = true ↔ g.filter = none ∨ g.selects eval r = true := by
  rw [Grant.admits, Bool.or_eq_true, Option.isNone_iff_eq_none]

theorem RowsOpen.granted {c : String} {r : R} (hrow : RowsOpen eval held t r)
    (hheld : ∃ g ∈ held, g.tbl = t) (hlists : ∀ g ∈ held, g.tbl = t → g.cols = none) :
    Granted eval held t c r := by
  have hcover {g : Grant} (hg : g ∈ held) (ht : g.tbl = t) : g.covers c = true :=
    Grant.covers_iff.2 (.inl (hlists g hg ht))
  rcases hrow with ⟨g, hg, ht, -, hfilter⟩ | hfilters | ⟨g, hg, ht, hselects⟩
  · exact ⟨g, hg, ht, hcover hg ht, Grant.admits_iff.2 (.inl hfilter)⟩
  · obtain ⟨g, hg, ht⟩ := hheld
    exact ⟨g, hg, ht, hcover hg ht, Grant.admits_iff.2 (.inl (hfilters g hg ht))⟩
  · exact ⟨g, hg, ht, hcover hg ht, Grant.admits_iff.2 (.inr hselects)⟩

theorem ColumnsOpen.granted {c : String} {r : R} (hcolumn : ColumnsOpen held t c)
    (hheld : ∃ g ∈ held, g.tbl = t) (hfilters : ∀ g ∈ held, g.tbl = t → g.filter = none) :
    Granted eval held t c r := by
  have hadmit {g : Grant} (hg : g ∈ held) (ht : g.tbl = t) : g.admits eval r = true :=
    Grant.admits_iff.2 (.inl (hfilters g hg ht))
  rcases hcolumn with ⟨g, hg, ht, hcols, -⟩ | hlists | ⟨g, hg, ht, hlists⟩
  · exact ⟨g, hg, ht, Grant.covers_iff.2 (.inl hcols), hadmit hg ht⟩
  · obtain ⟨g, hg, ht⟩ := hheld
    exact ⟨g, hg, ht, Grant.covers_iff.2 (.inl (hlists g hg ht)), hadmit hg ht⟩
  · exact ⟨g, hg, ht, Grant.covers_iff.2 (.inr hlists), hadmit hg ht⟩

theorem Separable.granted {columns : List String} {c : String} {r : R}
    (h : Separable eval held t columns) (hc : c ∈ columns) (hheld : ∃ g ∈ held, g.tbl = t)
    (hcolumn : ColumnsOpen held t c) (hrow : RowsOpen eval held t r) :
    Granted eval held t c r := by
  rcases h with ⟨g, hg, ht, hcols, hfilter⟩ | hlists | hfilters | ⟨-, -, htogether⟩
  · exact ⟨g, hg, ht, Grant.covers_iff.2 (.inl hcols), Grant.admits_iff.2 (.inl hfilter)⟩
  · exact hrow.granted hheld hlists
  · exact hcolumn.granted hheld hfilters
  · rcases hcolumn with ⟨g, hg, ht, hcols, hfilter⟩ | hlists | hlisted
    · exact ⟨g, hg, ht, Grant.covers_iff.2 (.inl hcols), Grant.admits_iff.2 (.inl hfilter)⟩
    · exact hrow.granted hheld hlists
    · rcases hrow with ⟨g, hg, ht, hcols, hfilter⟩ | hfilters | hselected
      · exact ⟨g, hg, ht, Grant.covers_iff.2 (.inl hcols), Grant.admits_iff.2 (.inl hfilter)⟩
      · exact ColumnsOpen.granted (.inr (.inr hlisted)) hheld hfilters
      · exact htogether c hc r hlisted hselected

theorem Separable.opens {columns : List String} {c : String} {r : R}
    (h : Separable eval held t columns) (hc : c ∈ columns) (hgranted : Granted eval held t c r) :
    ColumnsOpen held t c ∧ RowsOpen eval held t r := by
  obtain ⟨g, hg, ht, hcovers, hadmits⟩ := hgranted
  rw [Grant.covers_iff] at hcovers
  rw [Grant.admits_iff] at hadmits
  rcases hcovers with hcols | hlists <;> rcases hadmits with hfilter | hselects
  · exact ⟨.inl ⟨g, hg, ht, hcols, hfilter⟩, .inl ⟨g, hg, ht, hcols, hfilter⟩⟩
  · -- A filter without a list: the column is open only where no list is there.
    refine ⟨?_, .inr (.inr ⟨g, hg, ht, hselects⟩)⟩
    rcases h with hplain | hnone | hfilters | ⟨hcolumns, -, -⟩
    · exact .inl hplain
    · exact .inr (.inl hnone)
    · exact .inl ⟨g, hg, ht, hcols, hfilters g hg ht⟩
    · exact .inr (.inr (hcolumns g hg ht hcols r hselects c hc))
  · refine ⟨.inr (.inr ⟨g, hg, ht, hlists⟩), ?_⟩
    rcases h with hplain | hnone | hfilters | ⟨-, hrows, -⟩
    · exact .inl hplain
    · exact .inl ⟨g, hg, ht, hnone g hg ht, hfilter⟩
    · exact .inr (.inl hfilters)
    · exact .inr (.inr (hrows g hg ht hfilter c hc hlists r))
  · exact ⟨.inr (.inr ⟨g, hg, ht, hlists⟩), .inr (.inr ⟨g, hg, ht, hselects⟩)⟩

/-- Where access by code is access by grant, the grants are separable. -/
theorem separable_of_exact {columns : List String}
    (h : ∀ r : R, ∀ c ∈ columns,
      ((∃ g ∈ held, g.tbl = t) ∧ ColumnsOpen held t c ∧ RowsOpen eval held t r ↔
        Granted eval held t c r)) : Separable eval held t columns := by
  by_cases hplain : Plain held t
  · exact .inl hplain
  by_cases hlists : ∀ g ∈ held, g.tbl = t → g.cols = none
  · exact .inr (.inl hlists)
  by_cases hfilters : ∀ g ∈ held, g.tbl = t → g.filter = none
  · exact .inr (.inr (.inl hfilters))
  refine .inr (.inr (.inr ⟨fun g hg ht hcols r hselects c hc => ?_,
    fun g hg ht hfilter c hc hlisted r => ?_, fun c hc r hlisted hselected => ?_⟩))
  · obtain ⟨-, hcolumn, -⟩ := (h r c hc).2
      ⟨g, hg, ht, Grant.covers_iff.2 (.inl hcols), Grant.admits_iff.2 (.inr hselects)⟩
    exact (hcolumn.resolve_left hplain).resolve_left hlists
  · obtain ⟨-, -, hrow⟩ := (h r c hc).2
      ⟨g, hg, ht, Grant.covers_iff.2 (.inr hlisted), Grant.admits_iff.2 (.inl hfilter)⟩
    exact (hrow.resolve_left hplain).resolve_left hfilters
  · have hheld : ∃ g ∈ held, g.tbl = t := hlisted.imp fun g hg => ⟨hg.1, hg.2.1⟩
    exact (h r c hc).1 ⟨hheld, .inr (.inr hlisted), .inr (.inr hselected)⟩

end Access

theorem resolvedFrom_of_resolve {store : UserStore} {name : String} {g : FilteredGrants}
    (hresolve : resolveGrants store name = some g)
    (hroles : g.admin = false ∧ g.readonly = false ∧ g.readwrite = false)
    (hselect : ∀ gr ∈ heldGrants store name, gr.priv = .select) :
    ResolvedFrom (heldGrants store name) ((heldGrants store name).foldl (addGrant false) {}) g := by
  obtain ⟨hadmin, hreadonly, hreadwrite⟩ := hroles
  unfold resolveGrants at hresolve
  split at hresolve
  · rw [← Option.some.inj hresolve] at hadmin hreadonly hreadwrite ⊢
    dsimp only at hadmin hreadonly hreadwrite
    rw [hadmin, hreadonly, hreadwrite]
    exact ⟨collected_foldl hselect, rfl, rfl, rfl, rfl, rfl, rfl⟩
  · cases hresolve

/-- A row is its region. -/
def regionFilter (pred region : String) : Option Bool :=
  if pred = "region = 'eu'" then some (region = "eu")
  else if pred = "region = 'us'" then some (region = "us")
  else none

def onlyColumn (c : String) : Option ColumnList := some ⟨[c], List.cons_ne_nil c []⟩

def eveHolds (grants : List Grant) : UserStore := { users := ["eve"], grants := grants }

def eveGrants (grants : List Grant) : FilteredGrants :=
  (resolveGrants (eveHolds grants) "eve").getD {}

def sameColumn : List Grant := [
  { grantee := "eve", tbl := "led", cols := onlyColumn "a", filter := some "region = 'eu'" },
  { grantee := "eve", tbl := "led", cols := onlyColumn "a", filter := some "region = 'us'" }]

theorem resolve_eve (grants : List Grant) :
    resolveGrants (eveHolds grants) "eve" = some (eveGrants grants) := by
  unfold eveGrants resolveGrants eveHolds
  simp

theorem eveGrants_roles (grants : List Grant) :
    (eveGrants grants).admin = false ∧ (eveGrants grants).readonly = false ∧
      (eveGrants grants).readwrite = false := by
  unfold eveGrants resolveGrants eveHolds rolesOf
  simp

theorem heldGrants_eve {grants : List Grant} (h : ∀ gr ∈ grants, gr.grantee = "eve") :
    heldGrants (eveHolds grants) "eve" = grants := by
  refine List.filter_eq_self.2 fun gr hgr => ?_
  rw [h gr hgr]
  rfl

/-- One column in the rows of one region, another in those of the other. -/
def twoColumns : List Grant := [
  { grantee := "eve", tbl := "led", cols := onlyColumn "a", filter := some "region = 'eu'" },
  { grantee := "eve", tbl := "led", cols := onlyColumn "b", filter := some "region = 'us'" }]

/-- All columns in one region, and one column everywhere. -/
def mixed : List Grant := [
  { grantee := "eve", tbl := "led", filter := some "region = 'eu'" },
  { grantee := "eve", tbl := "led", cols := onlyColumn "a" }]

end Docsql.Sql
