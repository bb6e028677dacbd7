import Mathlib

/-!
# The election of a rejoin repair

`decide_repair` of `catchup.rs`: every node compares its table digests with the
reports of its peers and picks the state the mesh is to converge on, the one
most nodes hold.  Ties go to the state with more rows, then to the smaller
serialization.
-/

namespace Docsql.Cluster

structure TableDigest where
  name : String
  rows : UInt64
  rowsHash : UInt64
  schemaHash : UInt64
deriving DecidableEq

abbrev Digests := List TableDigest

/-- The rows of all tables, summed as a `u64`. -/
def rowCount (s : Digests) : ℕ := (s.map fun t => t.rows.toNat).sum % 2 ^ 64

inductive RepairDecision where
  | converged
  | serve
  | pull (source : String)
deriving DecidableEq

/-! ## The decision of one node -/

/-- One report joins the group with its state, or starts one. -/
def addReport (peer : String) (digests : Digests) :
    List (Digests × List String) → List (Digests × List String)
  | [] => [(digests, [peer])]
  | (d, members) :: groups =>
    if d = digests then (d, members ++ [peer]) :: groups
    else (d, members) :: addReport peer digests groups

def groupReports (reports : List (String × Digests)) : List (Digests × List String) :=
  reports.foldl (fun groups r => addReport r.1 r.2 groups) []

/-- The leading state: where to pull it from, the size of its group, its rows and
its serialization. -/
structure Winner where
  source : String
  size : ℕ
  rows : ℕ
  bytes : List UInt8
  isLocal : Bool

section Decide

variable (serialize : Digests → List UInt8)

def candidate (group : Digests × List String) : Winner where
  source := group.2.headD ""
  size := group.2.length
  rows := rowCount group.1
  bytes := serialize group.1
  isLocal := false

/-- More members, then more rows, then the smaller bytes. -/
def Winner.better (c w : Winner) : Bool :=
  c.size > w.size ∨ c.size = w.size ∧
    (c.rows > w.rows ∨ c.rows = w.rows ∧
      c.bytes.map UInt8.toNat < w.bytes.map UInt8.toNat)

def challenge (w : Winner) (group : Digests × List String) : Winner :=
  if (candidate serialize group).better w then candidate serialize group else w

def agreeingPeers (digests : Digests) (groups : List (Digests × List String)) : ℕ :=
  ((groups.find? fun g => g.1 = digests).map fun g => g.2.length).getD 0

def localWinner (digests : Digests) (agreeing : ℕ) : Winner :=
  ⟨"", agreeing + 1, rowCount digests, serialize digests, true⟩

def decideRepair (digests : Digests) (reports : List (String × Digests)) : RepairDecision :=
  let groups := groupReports reports
  let agreeing := agreeingPeers digests groups
  let winner := groups.foldl (challenge serialize) (localWinner serialize digests agreeing)
  if winner.isLocal then if 0 < agreeing then .converged else .serve
  else if winner.rows = 0 then if 0 < rowCount digests then .serve else .converged
  else .pull winner.source

end Decide

/-! ## Groups -/

section Groups

variable {reports : List (String × Digests)} {groups : List (Digests × List String)}

/-- The groups are the states reported, each with the peers that report it. -/
structure Grouped (reports : List (String × Digests)) (groups : List (Digests × List String)) :
    Prop where
  states : (groups.map Prod.fst).Nodup
  members : ∀ g ∈ groups, g.2 = (reports.filter fun r => r.2 = g.1).map Prod.fst ∧ g.2 ≠ []
  all : ∀ r ∈ reports, r.2 ∈ groups.map Prod.fst

theorem addReport_states (peer : String) (digests : Digests)
    (groups : List (Digests × List String)) :
    (addReport peer digests groups).map Prod.fst =
      if digests ∈ groups.map Prod.fst then groups.map Prod.fst
      else groups.map Prod.fst ++ [digests] := by
  induction groups with
  | nil => rfl
  | cons g groups ih =>
    obtain ⟨d, members⟩ := g
    rw [addReport]
    by_cases hd : d = digests
    · rw [if_pos hd, if_pos (by simp [hd])]
      rfl
    · rw [if_neg hd, List.map_cons, ih, List.map_cons]
      have hmem : (digests ∈ d :: groups.map Prod.fst) ↔ digests ∈ groups.map Prod.fst := by
        simp [Ne.symm hd]
      by_cases hin : digests ∈ groups.map Prod.fst
      · rw [if_pos hin, if_pos (hmem.mpr hin)]
      · rw [if_neg hin, if_neg fun h => hin (hmem.mp h)]
        rfl

/-- A group after a report: one that was there, with the peer or without. -/
theorem mem_addReport {peer : String} {digests : Digests} {g : Digests × List String}
    (hnodup : (groups.map Prod.fst).Nodup) (h : g ∈ addReport peer digests groups) :
    (g ∈ groups ∧ g.1 ≠ digests) ∨
      (∃ members, (digests, members) ∈ groups ∧ g = (digests, members ++ [peer])) ∨
      (digests ∉ groups.map Prod.fst ∧ g = (digests, [peer])) := by
  induction groups with
  | nil => exact .inr (.inr ⟨List.not_mem_nil, List.mem_singleton.mp h⟩)
  | cons g' groups ih =>
    obtain ⟨d, members⟩ := g'
    obtain ⟨hnew, hnodup⟩ := List.nodup_cons.mp hnodup
    rw [addReport] at h
    split at h
    · rename_i hd
      subst hd
      rcases List.mem_cons.mp h with rfl | h
      · exact .inr (.inl ⟨members, List.mem_cons_self, rfl⟩)
      · refine .inl ⟨List.mem_cons_of_mem _ h, fun heq => hnew ?_⟩
        exact List.mem_map.mpr ⟨g, h, heq⟩
    · rename_i hd
      rcases List.mem_cons.mp h with rfl | h
      · exact .inl ⟨List.mem_cons_self, hd⟩
      · rcases ih hnodup h with ⟨hold, hne⟩ | ⟨ms, hold, heq⟩ | ⟨hnone, heq⟩
        · exact .inl ⟨List.mem_cons_of_mem _ hold, hne⟩
        · exact .inr (.inl ⟨ms, List.mem_cons_of_mem _ hold, heq⟩)
        · refine .inr (.inr ⟨fun hin => ?_, heq⟩)
          rcases List.mem_cons.mp hin with hself | hin
          · exact hd hself.symm
          · exact hnone hin

theorem Grouped.addReport (h : Grouped reports groups) (peer : String) (digests : Digests) :
    Grouped (reports ++ [(peer, digests)]) (addReport peer digests groups) := by
  have hstates := addReport_states peer digests groups
  refine ⟨?_, fun g hg => ?_, fun r hr => ?_⟩
  · rw [hstates]
    split
    · exact h.states
    · rename_i hnew
      rw [List.nodup_append]
      refine ⟨h.states, List.nodup_singleton _, fun a ha b hb => ?_⟩
      rintro rfl
      exact hnew (List.mem_singleton.mp hb ▸ ha)
  · rcases mem_addReport h.states hg with ⟨hold, hne⟩ | ⟨members, hold, rfl⟩ | ⟨hnew, rfl⟩
    · rw [List.filter_append, List.filter_singleton, decide_eq_false (Ne.symm hne)]
      simpa using h.members g hold
    · have hmembers := (h.members _ hold).1
      simp only at hmembers
      simp [hmembers]
    · have hnone : reports.filter (fun r => r.2 = digests) = [] := by
        refine List.filter_eq_nil_iff.mpr fun r hr hin => hnew ?_
        exact of_decide_eq_true hin ▸ h.all r hr
      simp [hnone]
  · rw [hstates]
    rcases List.mem_append.mp hr with hr | hr
    · have hin := h.all r hr
      split
      · exact hin
      · exact List.mem_append_left _ hin
    · obtain rfl := List.mem_singleton.mp hr
      split
      · assumption
      · simp

theorem grouped_groupReports (reports : List (String × Digests)) :
    Grouped reports (groupReports reports) := by
  induction reports using List.reverseRecOn with
  | nil => exact ⟨List.nodup_nil, by simp [groupReports], by simp⟩
  | append_singleton reports r ih =>
    have hfold : groupReports (reports ++ [r]) = addReport r.1 r.2 (groupReports reports) := by
      simp [groupReports]
    rw [hfold]
    exact ih.addReport r.1 r.2

theorem agreeingPeers_eq (h : Grouped reports groups) (digests : Digests) :
    agreeingPeers digests groups = (reports.filter fun r => r.2 = digests).length := by
  unfold agreeingPeers
  cases hfind : groups.find? fun g => g.1 = digests with
  | none =>
    have hnone : reports.filter (fun r => r.2 = digests) = [] := by
      refine List.filter_eq_nil_iff.mpr fun r hr hin => ?_
      obtain ⟨g, hg, heq⟩ := List.mem_map.mp (h.all r hr)
      have hstate : g.1 = digests := heq.trans (of_decide_eq_true hin)
      exact List.find?_eq_none.mp hfind g hg (decide_eq_true hstate)
    rw [hnone]
    rfl
  | some g =>
    have hstate : g.1 = digests := by simpa using List.find?_some hfind
    have hmembers := (h.members g (List.mem_of_find?_eq_some hfind)).1
    rw [hstate] at hmembers
    simp [hmembers]

end Groups

/-! ## The leading state -/

variable {serialize : Digests → List UInt8}

/-- What the election compares, in the order it does. -/
abbrev Rank := ℕ ×ₗ (ℕ ×ₗ (List ℕ)ᵒᵈ)

def rankOf (size rows : ℕ) (bytes : List UInt8) : Rank :=
  toLex (size, toLex (rows, OrderDual.toDual (bytes.map UInt8.toNat)))

def Winner.rank (w : Winner) : Rank := rankOf w.size w.rows w.bytes

theorem Winner.better_iff (c w : Winner) : c.better w = true ↔ w.rank < c.rank := by
  rw [Winner.better, decide_eq_true_iff, Winner.rank, Winner.rank, rankOf, rankOf,
    Prod.Lex.toLex_lt_toLex, Prod.Lex.toLex_lt_toLex, OrderDual.toDual_lt_toDual]
  dsimp only
  rw [eq_comm (a := c.size), eq_comm (a := c.rows)]

/-- The fold ends with the first winner or a group that outranks it, and nothing
outranks the end. -/
theorem foldl_challenge (serialize : Digests → List UInt8)
    (groups : List (Digests × List String)) (w : Winner) :
    (groups.foldl (challenge serialize) w = w ∨
      ∃ g ∈ groups, groups.foldl (challenge serialize) w = candidate serialize g ∧
        w.rank < (candidate serialize g).rank) ∧
    w.rank ≤ (groups.foldl (challenge serialize) w).rank ∧
    ∀ g ∈ groups, (candidate serialize g).rank ≤ (groups.foldl (challenge serialize) w).rank := by
  induction groups generalizing w with
  | nil => exact ⟨.inl rfl, le_refl _, fun _ h => (List.not_mem_nil h).elim⟩
  | cons g groups ih =>
    obtain ⟨hfrom, hle, hall⟩ := ih (challenge serialize w g)
    rw [List.foldl_cons]
    by_cases hbetter : (candidate serialize g).better w = true
    · have hc : challenge serialize w g = candidate serialize g := if_pos hbetter
      rw [hc] at hfrom hle hall ⊢
      have hlt := (Winner.better_iff _ _).mp hbetter
      refine ⟨.inr ?_, hlt.le.trans hle, fun g' hg' => ?_⟩
      · rcases hfrom with hfrom | ⟨g', hg', hfrom, hlt'⟩
        · exact ⟨g, List.mem_cons_self, hfrom, hlt⟩
        · exact ⟨g', List.mem_cons_of_mem _ hg', hfrom, hlt.trans hlt'⟩
      · rcases List.mem_cons.mp hg' with rfl | hg'
        · exact hle
        · exact hall g' hg'
    · have hc : challenge serialize w g = w := if_neg hbetter
      rw [hc] at hfrom hle hall ⊢
      have hge := not_lt.mp fun hlt => hbetter ((Winner.better_iff _ _).mpr hlt)
      refine ⟨?_, hle, fun g' hg' => ?_⟩
      · rcases hfrom with hfrom | ⟨g', hg', hfrom, hlt'⟩
        · exact .inl hfrom
        · exact .inr ⟨g', List.mem_cons_of_mem _ hg', hfrom, hlt'⟩
      · rcases List.mem_cons.mp hg' with rfl | hg'
        · exact hge.trans hle
        · exact hall g' hg'

/-! ## A mesh -/

/-- What each node holds, in which order it lists the reports of the others, and
the addresses it knows them by. -/
structure Mesh (ι : Type) where
  digests : ι → Digests
  peers : ι → List ι
  addr : ι → ι → String
  once : ∀ i, (peers i).Nodup
  others : ∀ i j, j ∈ peers i ↔ j ≠ i
  addr_inj : ∀ i, Function.Injective (addr i)

namespace Mesh

variable {ι : Type} (m : Mesh ι)

def reports (i : ι) : List (String × Digests) := (m.peers i).map fun j => (m.addr i j, m.digests j)

variable (serialize : Digests → List UInt8)

def decision (i : ι) : RepairDecision := decideRepair serialize (m.digests i) (m.reports i)

/-- The winner of the election as this node runs it. -/
def winner (i : ι) : Winner :=
  (groupReports (m.reports i)).foldl (challenge serialize)
    (localWinner serialize (m.digests i)
      (agreeingPeers (m.digests i) (groupReports (m.reports i))))

/-- What a node holds after the pull it decided on. -/
def after (i : ι) : Digests :=
  match m.decision serialize i with
  | .pull source => ((m.reports i).lookup source).getD (m.digests i)
  | _ => m.digests i

/-- The node keeps what it holds. -/
def Keeps (serialize : Digests → List UInt8) (m : Mesh ι) (i : ι) : Prop :=
  m.decision serialize i = .converged ∨ m.decision serialize i = .serve

section Decision

variable {m} {serialize : Digests → List UInt8} {i : ι}

theorem keeps_of_local (h : (m.winner serialize i).isLocal = true) : Keeps serialize m i := by
  have hdecision : m.decision serialize i = if 0 < agreeingPeers (m.digests i)
      (groupReports (m.reports i)) then .converged else .serve := if_pos h
  rw [Keeps, hdecision]
  split
  · exact .inl rfl
  · exact .inr rfl

theorem keeps_of_empty (hlocal : (m.winner serialize i).isLocal = false)
    (hrows : (m.winner serialize i).rows = 0) : Keeps serialize m i := by
  have hdecision : m.decision serialize i =
      if 0 < rowCount (m.digests i) then .serve else .converged :=
    (if_neg (by rw [← winner, hlocal]; exact Bool.false_ne_true)).trans (if_pos hrows)
  rw [Keeps, hdecision]
  split
  · exact .inr rfl
  · exact .inl rfl

theorem pulls_of_rows (hlocal : (m.winner serialize i).isLocal = false)
    (hrows : (m.winner serialize i).rows ≠ 0) :
    m.decision serialize i = .pull (m.winner serialize i).source :=
  (if_neg (by rw [← winner, hlocal]; exact Bool.false_ne_true)).trans (if_neg hrows)

theorem after_of_keeps (h : Keeps serialize m i) : m.after serialize i = m.digests i := by
  unfold after
  rcases h with h | h
  · rw [h]
  · rw [h]

theorem after_of_pull {j : ι} (hj : j ≠ i) (h : m.decision serialize i = .pull (m.addr i j)) :
    m.after serialize i = m.digests j := by
  have hlookup : ∀ peers : List ι, j ∈ peers →
      (peers.map fun j => (m.addr i j, m.digests j)).lookup (m.addr i j) =
        some (m.digests j) := by
    intro peers hmem
    induction peers with
    | nil => exact (List.not_mem_nil hmem).elim
    | cons k peers ih =>
      rw [List.map_cons, List.lookup_cons]
      by_cases hk : j = k
      · subst hk
        rw [beq_self_eq_true]
      · have hne : (m.addr i j == m.addr i k) = false := by
          simpa using fun heq => hk (m.addr_inj i heq)
        rw [hne]
        exact ih ((List.mem_cons.mp hmem).resolve_left hk)
  rw [after, h]
  dsimp only
  rw [reports, hlookup _ ((m.others i j).mpr hj)]
  rfl

end Decision

/-! ## Standings -/

variable [Fintype ι]

/-- How many nodes hold a state. -/
def holders (s : Digests) : ℕ := (Finset.univ.filter fun i => m.digests i = s).card

def standing (s : Digests) : Rank := rankOf (m.holders s) (rowCount s) (serialize s)

variable {serialize}

theorem holders_eq (i : ι) (s : Digests) :
    ((m.reports i).filter fun r => r.2 = s).length + (if m.digests i = s then 1 else 0) =
      m.holders s := by
  classical
  have hlen : ((m.reports i).filter fun r => r.2 = s).length =
      ((Finset.univ.filter fun j => m.digests j = s).erase i).card := by
    have hpeers : ((m.reports i).filter fun r => r.2 = s).length =
        ((m.peers i).filter fun j => m.digests j = s).length := by
      rw [reports, List.filter_map, List.length_map]
      rfl
    rw [hpeers, ← List.toFinset_card_of_nodup ((m.once i).filter _)]
    congr 1
    ext j
    simp [m.others]
  rw [hlen, holders]
  by_cases hi : m.digests i = s
  · rw [if_pos hi]
    exact Finset.card_erase_add_one (by simp [hi])
  · rw [if_neg hi, Finset.erase_eq_of_notMem (by simp [hi]), Nat.add_zero]

variable {m} {i : ι}

theorem localWinner_rank (m : Mesh ι) (i : ι) :
    (localWinner serialize (m.digests i)
      (agreeingPeers (m.digests i) (groupReports (m.reports i)))).rank =
      m.standing serialize (m.digests i) := by
  have hsize := m.holders_eq i (m.digests i)
  rw [if_pos rfl] at hsize
  rw [agreeingPeers_eq (grouped_groupReports _), localWinner, hsize]
  rfl

/-- A group has the standing of its state, or less where the node itself is of it. -/
theorem candidate_rank (serialize : Digests → List UInt8) {g : Digests × List String}
    (hg : g ∈ groupReports (m.reports i)) :
    (g.1 ≠ m.digests i → (candidate serialize g).rank = m.standing serialize g.1) ∧
      (g.1 = m.digests i → (candidate serialize g).rank < m.standing serialize g.1) := by
  have hsize := m.holders_eq i g.1
  have hmembers := congrArg List.length ((grouped_groupReports (m.reports i)).members g hg).1
  rw [List.length_map] at hmembers
  rw [← hmembers] at hsize
  constructor
  · intro hne
    rw [if_neg (Ne.symm hne), Nat.add_zero] at hsize
    rw [standing, ← hsize]
    rfl
  · intro heq
    rw [if_pos heq.symm] at hsize
    rw [standing, Winner.rank, rankOf, rankOf, Prod.Lex.toLex_lt_toLex]
    exact .inl (hsize ▸ Nat.lt_succ_self _)

/-- The states held have different serializations. -/
def Separates (serialize : Digests → List UInt8) (m : Mesh ι) : Prop :=
  ∀ i j, serialize (m.digests i) = serialize (m.digests j) → m.digests i = m.digests j

theorem eq_of_standing (hser : Separates serialize m) {i j : ι}
    (h : m.standing serialize (m.digests i) = m.standing serialize (m.digests j)) :
    m.digests i = m.digests j := by
  have hbytes := congrArg (fun r : Rank => OrderDual.ofDual (ofLex (ofLex r).2).2) h
  exact hser i j (List.map_injective_iff.mpr (fun _ _ => UInt8.toNat_inj.mp) hbytes)

/-- The election as the node sees it: its own state is on top, or a peer holds the
state that is. -/
theorem winner_cases (serialize : Digests → List UInt8) (m : Mesh ι) (i : ι) :
    ((m.winner serialize i).isLocal = true ∧
      ∀ j, m.standing serialize (m.digests j) ≤ m.standing serialize (m.digests i)) ∨
    ∃ j, m.digests j ≠ m.digests i ∧
      (∀ j', m.standing serialize (m.digests j') ≤ m.standing serialize (m.digests j)) ∧
      (m.winner serialize i).isLocal = false ∧
      (m.winner serialize i).rows = rowCount (m.digests j) ∧
      (m.winner serialize i).source = m.addr i j := by
  obtain ⟨hfrom, hlocal, hall⟩ := foldl_challenge serialize (groupReports (m.reports i))
    (localWinner serialize (m.digests i)
      (agreeingPeers (m.digests i) (groupReports (m.reports i))))
  rw [← winner, localWinner_rank] at hlocal
  have hgrouped := grouped_groupReports (m.reports i)
  have hhighest : ∀ j, m.standing serialize (m.digests j) ≤ (m.winner serialize i).rank := by
    intro j
    by_cases hj : m.digests j = m.digests i
    · rw [hj]
      exact hlocal
    · have hpeer : j ∈ m.peers i := (m.others i j).mpr fun heq => hj (heq ▸ rfl)
      obtain ⟨g, hg, hstate⟩ := List.mem_map.mp (hgrouped.all _ (List.mem_map_of_mem hpeer))
      have hstate : g.1 = m.digests j := hstate
      have hrank := (candidate_rank serialize hg).1 (hstate ▸ hj)
      rw [← hstate, ← hrank]
      exact hall g hg
  rcases hfrom with hfrom | ⟨g, hg, hfrom, hlt⟩
  · have hwinner : m.winner serialize i = localWinner serialize (m.digests i)
        (agreeingPeers (m.digests i) (groupReports (m.reports i))) := hfrom
    refine .inl ⟨by rw [hwinner]; rfl, fun j => (hhighest j).trans (le_of_eq ?_)⟩
    rw [← localWinner_rank, hwinner]
  · rw [localWinner_rank] at hlt
    have hne : g.1 ≠ m.digests i := by
      intro heq
      have hless := (candidate_rank serialize hg).2 heq
      rw [heq] at hless
      exact lt_asymm hlt hless
    obtain ⟨hmembers, hsome⟩ := hgrouped.members g hg
    obtain ⟨source, rest, hcons⟩ := List.exists_cons_of_ne_nil hsome
    have hsource : source ∈ ((m.reports i).filter fun r => r.2 = g.1).map Prod.fst := by
      rw [← hmembers, hcons]
      exact List.mem_cons_self
    obtain ⟨r, hr, hfst⟩ := List.mem_map.mp hsource
    obtain ⟨hr, hstate⟩ := List.mem_filter.mp hr
    obtain ⟨j, -, rfl⟩ := List.mem_map.mp hr
    have hj : m.digests j = g.1 := of_decide_eq_true hstate
    have hrank := (candidate_rank serialize hg).1 hne
    have hwinner : m.winner serialize i = candidate serialize g := hfrom
    refine .inr ⟨j, hj ▸ hne, fun j' => ?_, ?_, ?_, ?_⟩
    · rw [hj, ← hrank, ← hwinner]
      exact hhighest j'
    · rw [hwinner]
      rfl
    · rw [hwinner, hj]
      rfl
    · rw [hwinner]
      change g.2.headD "" = m.addr i j
      rw [hcons]
      exact hfst.symm

/-! ## Agreement -/

/-- The nodes of the mesh agree on one state, and all hold it in the end. -/
structure Agree (serialize : Digests → List UInt8) (m : Mesh ι) (s : Digests) : Prop where
  rows : ∃ t ∈ s, 0 < t.rows.toNat
  holders : ∀ i, m.digests i = s ↔ Keeps serialize m i
  pulls : ∀ i, m.digests i ≠ s → ∃ j, m.digests j = s ∧
    m.decision serialize i = .pull (m.addr i j)
  after : ∀ i, m.after serialize i = s

/-- No node with rows pulls a state without. -/
def RowsKept (serialize : Digests → List UInt8) (m : Mesh ι) : Prop :=
  ∀ i j, m.decision serialize i = .pull (m.addr i j) → (∃ t ∈ m.digests i, 0 < t.rows.toNat) →
    ∃ t ∈ m.digests j, 0 < t.rows.toNat

theorem exists_rows {s : Digests} (h : rowCount s ≠ 0) : ∃ t ∈ s, 0 < t.rows.toNat := by
  by_contra hnone
  push Not at hnone
  refine h ?_
  have hsum : (s.map fun t => t.rows.toNat).sum = 0 := by
    refine List.sum_eq_zero fun n hn => ?_
    obtain ⟨t, ht, rfl⟩ := List.mem_map.mp hn
    exact Nat.le_zero.mp (hnone t ht)
  rw [rowCount, hsum]
  rfl

/-- Every empty state is held by no more nodes than some state with rows. -/
def RowsLead (m : Mesh ι) : Prop :=
  (∀ i j, m.digests i = m.digests j) ∨
    ∃ i, 0 < rowCount (m.digests i) ∧
      ∀ j, rowCount (m.digests j) = 0 → m.holders (m.digests j) ≤ m.holders (m.digests i)

theorem rank_lt_of_rows {size size' rows : ℕ} {bytes bytes' : List UInt8} (hrows : 0 < rows)
    (hsize : size ≤ size') : rankOf size 0 bytes < rankOf size' rows bytes' := by
  rw [rankOf, rankOf, Prod.Lex.toLex_lt_toLex]
  rcases Nat.lt_or_eq_of_le hsize with hlt | heq
  · exact .inl hlt
  · exact .inr ⟨heq, Prod.Lex.toLex_lt_toLex.mpr (.inl hrows)⟩

theorem holders_le_of_standing {s s' : Digests}
    (h : m.standing serialize s ≤ m.standing serialize s') : m.holders s ≤ m.holders s' := by
  rcases Prod.Lex.toLex_le_toLex.mp h with hlt | ⟨heq, -⟩
  · exact hlt.le
  · exact heq.le

/-- A state with rows on top is the one the mesh agrees on. -/
theorem agree_of_top (hser : Separates serialize m) {top : ι}
    (htop : ∀ j, m.standing serialize (m.digests j) ≤ m.standing serialize (m.digests top))
    (hrows : rowCount (m.digests top) ≠ 0) : Agree serialize m (m.digests top) := by
  have hcases : ∀ i, (m.digests i = m.digests top ∧ Keeps serialize m i) ∨
      (m.digests i ≠ m.digests top ∧ ∃ j, j ≠ i ∧ m.digests j = m.digests top ∧
        m.decision serialize i = .pull (m.addr i j)) := by
    intro i
    rcases winner_cases serialize m i with ⟨hlocal, hhigh⟩ | ⟨j, hne, hhigh, hlocal, hw, hsource⟩
    · exact .inl ⟨eq_of_standing hser (le_antisymm (htop i) (hhigh top)), keeps_of_local hlocal⟩
    · have hj : m.digests j = m.digests top :=
        eq_of_standing hser (le_antisymm (htop j) (hhigh top))
      rw [hj] at hw hne
      refine .inr ⟨Ne.symm hne, j, ?_, hj, ?_⟩
      · rintro rfl
        exact hne hj.symm
      · rw [← hsource]
        exact pulls_of_rows hlocal (hw ▸ hrows)
  refine ⟨exists_rows hrows, fun i => ?_, fun i hne => ?_, fun i => ?_⟩
  · rcases hcases i with ⟨heq, hkeeps⟩ | ⟨hne, j, -, -, hpull⟩
    · exact ⟨fun _ => hkeeps, fun _ => heq⟩
    · refine ⟨fun heq => absurd heq hne, fun hkeeps => ?_⟩
      rw [Keeps, hpull] at hkeeps
      rcases hkeeps with h | h
      · cases h
      · cases h
  · rcases hcases i with ⟨heq, -⟩ | ⟨-, j, -, hj, hpull⟩
    · exact absurd heq hne
    · exact ⟨j, hj, hpull⟩
  · rcases hcases i with ⟨heq, hkeeps⟩ | ⟨-, j, hji, hj, hpull⟩
    · rw [after_of_keeps hkeeps, heq]
    · rw [after_of_pull hji hpull, hj]

/-- Nobody pulls when the state on top counts no rows. -/
theorem keeps_of_empty_top (hser : Separates serialize m) {top : ι}
    (htop : ∀ j, m.standing serialize (m.digests j) ≤ m.standing serialize (m.digests top))
    (hrows : rowCount (m.digests top) = 0) (i : ι) : Keeps serialize m i := by
  rcases winner_cases serialize m i with ⟨hlocal, -⟩ | ⟨j, -, hhigh, hlocal, hw, -⟩
  · exact keeps_of_local hlocal
  · have hj : m.digests j = m.digests top :=
      eq_of_standing hser (le_antisymm (htop j) (hhigh top))
    exact keeps_of_empty hlocal (hw.trans (hj ▸ hrows))

theorem rowsKept (serialize : Digests → List UInt8) (m : Mesh ι) : RowsKept serialize m := by
  intro i j hpull _
  rcases winner_cases serialize m i with ⟨hlocal, -⟩ | ⟨j', -, -, hlocal, hw, hsource⟩
  · rcases keeps_of_local hlocal with h | h
    · rw [h] at hpull
      cases hpull
    · rw [h] at hpull
      cases hpull
  · by_cases hrows : (m.winner serialize i).rows = 0
    · rcases keeps_of_empty hlocal hrows with h | h
      · rw [h] at hpull
        cases hpull
      · rw [h] at hpull
        cases hpull
    · rw [pulls_of_rows hlocal hrows, hsource, RepairDecision.pull.injEq] at hpull
      rw [← m.addr_inj i hpull]
      exact exists_rows (hw ▸ hrows)

/-- The mesh agrees on a state with rows exactly when no empty state leads. -/
theorem repair_election_agrees (serialize : Digests → List UInt8) (m : Mesh ι)
    (hser : Separates serialize m) (hheld : ∃ i, ∃ t ∈ m.digests i, 0 < t.rows.toNat) :
    (∃ s, Agree serialize m s) ∧ RowsKept serialize m ↔ RowsLead m := by
  obtain ⟨i₀, hi₀⟩ := hheld
  obtain ⟨top, -, htop⟩ := Finset.exists_max_image Finset.univ
    (fun j => m.standing serialize (m.digests j)) ⟨i₀, Finset.mem_univ i₀⟩
  replace htop := fun j => htop j (Finset.mem_univ j)
  by_cases hrows : rowCount (m.digests top) = 0
  · -- everybody keeps what it holds, so agreement needs a single state
    have hkeeps := keeps_of_empty_top hser htop hrows
    constructor
    · rintro ⟨⟨s, hs⟩, -⟩
      refine .inl fun i j => ?_
      rw [(hs.holders i).mpr (hkeeps i), (hs.holders j).mpr (hkeeps j)]
    · rintro (hsame | ⟨i, hi, hlead⟩)
      · refine ⟨⟨m.digests i₀, hi₀, fun i => ?_, fun i hne => ?_, fun i => ?_⟩, rowsKept _ m⟩
        · exact ⟨fun _ => hkeeps i, fun _ => hsame i i₀⟩
        · exact absurd (hsame i i₀) hne
        · rw [after_of_keeps (hkeeps i), hsame i i₀]
      · have hlt : m.standing serialize (m.digests top) < m.standing serialize (m.digests i) := by
          rw [standing, standing, hrows]
          exact rank_lt_of_rows hi (hlead top hrows)
        exact absurd hlt (not_lt.mpr (htop i))
  · refine ⟨fun _ => .inr ⟨top, Nat.pos_of_ne_zero hrows, fun j _ => ?_⟩, fun _ => ?_⟩
    · exact holders_le_of_standing (htop j)
    · exact ⟨⟨_, agree_of_top hser htop hrows⟩, rowsKept _ m⟩

/-! ### Three nodes -/

/-- The bytes of the serialization for tables whose names need no escapes. -/
def plainJson (s : Digests) : List UInt8 :=
  let field (name : String) (n : UInt64) : List Char :=
    ("\"" ++ name ++ "\":").toList ++ Nat.toDigits 10 n.toNat
  let table (t : TableDigest) : List Char :=
    "\x7b\"name\":\"".toList ++ t.name.toList ++ "\",".toList ++ field "rows" t.rows ++ [',']
      ++ field "rows_hash" t.rowsHash ++ [','] ++ field "schema_hash" t.schemaHash ++ ['\x7d']
  (['['] ++ [','].intercalate (s.map table) ++ [']']).map fun c => UInt8.ofNat c.toNat

/-- Three nodes that list each other in order. -/
def trio (a b c : Digests) : Mesh (Fin 3) where
  digests := ![a, b, c]
  peers := fun i => (List.finRange 3).filter (· ≠ i)
  addr := fun _ => !["a:6380", "b:6380", "c:6380"]
  once := by decide
  others := by decide
  addr_inj := by decide

def twoRows : Digests := [⟨"t", 2, 71, 5⟩]

def threeRows : Digests := [⟨"t", 3, 72, 5⟩]

/-- One node missed a row while two kept it. -/
theorem repair_election_agrees_on_majority :
    (∃ s, Agree plainJson (trio twoRows threeRows threeRows) s) ∧
      RowsKept plainJson (trio twoRows threeRows threeRows) := by
  refine (repair_election_agrees plainJson _ ?_ ⟨0, by decide⟩).mpr ?_
  · unfold Separates
    decide
  · exact .inr ⟨1, by decide, by decide⟩

/-- The only node with rows serves them, and the two empty nodes see no reason to
pull. -/
theorem repair_election_split :
    ¬((∃ i, ∃ t ∈ (trio twoRows [] []).digests i, 0 < t.rows.toNat) →
      ∃ s, Agree plainJson (trio twoRows [] []) s) := by
  intro hclaim
  obtain ⟨s, hs⟩ := hclaim ⟨0, by decide⟩
  have hempty : (trio twoRows [] []).digests 1 = s := (hs.holders 1).mpr (.inl (by decide))
  obtain ⟨t, ht, -⟩ := hs.rows
  rw [← hempty] at ht
  exact List.not_mem_nil ht

end Mesh

end Docsql.Cluster
