import Reel.Index.Ledger

/-!
A walk hands out every key of the map and the noted footers once, in order, with what
the merge makes of it, whatever the page limit.
-/

set_option autoImplicit false

namespace Reel
open Bytes StableSort List Merge

namespace Volume

def walkKeys (v : Volume) : List Str :=
  sortByKey id (v.index.map.entries.map Prod.fst ++
    v.noted.flatMap fun segment => segment.rows.map Row.key).dedup

def rowsOf (v : Volume) (key : Str) : List (Nat × Row) :=
  v.noted.flatMap fun segment =>
    (segment.footerRows.filter fun row => row.key = key).map fun row => (segment.id, row)

def walkAnswer (v : Volume) (key : Str) : Option Entry :=
  match v.index.map.get key with
  | some entry => v.mappedAnswer key entry
  | none => v.sealedAnswer key (v.rowsOf key)

def deliver (v : Volume) (keys : List Str) : List (Str × Entry) :=
  keys.filterMap fun key => (v.walkAnswer key).map fun entry => (key, entry)

def keysPast (v : Volume) (start : Bound) : List Str := v.walkKeys.filter fun key => start.admits key

def mapPast (v : Volume) (start : Bound) : List (Str × Entry) :=
  v.index.map.entries.filter fun e => start.admits e.1

variable {v : Volume} {key : Str}

theorem mem_walkKeys :
    key ∈ v.walkKeys ↔ (∃ entry, (key, entry) ∈ v.index.map.entries) ∨
      ∃ segment ∈ v.noted, ∃ row ∈ segment.rows, row.key = key := by
  simp [walkKeys, mem_sortByKey]

theorem walkKeys_sorted (v : Volume) : v.walkKeys.Pairwise (· < ·) := by
  have hle := sorted_sortByKey id (v.index.map.entries.map Prod.fst ++
    v.noted.flatMap fun segment => segment.rows.map Row.key).dedup
  have hnodup : v.walkKeys.Nodup :=
    (perm_sortByKey id _).nodup_iff.mpr (nodup_dedup _)
  exact (hle.and hnodup).imp fun h => lt_of_le_of_ne h.1 h.2

theorem keysPast_sorted (v : Volume) (start : Bound) : (v.keysPast start).Pairwise (· < ·) :=
  v.walkKeys_sorted.filter _

theorem mapPast_sorted (v : Volume) (start : Bound) :
    (v.mapPast start).Pairwise fun a b => a.1 < b.1 :=
  v.index.map.sorted.filter _

theorem footerRows_sorted (segment : Segment) :
    segment.footerRows.Pairwise fun a b => a.key ≤ b.key := by
  refine (sorted_sortByKey (fun row : Row => toLex (row.key, row.lsn)) segment.rows).imp ?_
  intro a b h
  rcases (Prod.Lex.le_iff).mp h with h | h
  · exact h.le
  · exact h.1.le

theorem openSealed_sorted (noted : List Segment) (start : Bound) :
    Merge.Sorted rowKey (openSealed noted start) := by
  intro run hrun
  obtain ⟨segment, -, rfl⟩ := mem_map.mp hrun
  rw [pairwise_map]
  exact (footerRows_sorted segment).filter _

variable {start : Bound} {x : Nat × Row}

theorem mem_openSealed {noted : List Segment} :
    (∃ run ∈ openSealed noted start, x ∈ run) ↔
      start.admits x.2.key = true ∧ ∃ segment ∈ noted, segment.id = x.1 ∧ x.2 ∈ segment.rows := by
  obtain ⟨id, row⟩ := x
  simp only [openSealed, mem_map, exists_exists_and_eq_and, mem_filter,
    Segment.footerRows, mem_sortByKey, Prod.mk.injEq]
  constructor
  · rintro ⟨segment, hs, row', ⟨hrow, had⟩, hid, rfl⟩
    exact ⟨had, segment, hs, hid, hrow⟩
  · rintro ⟨had, segment, hs, hid, hrow⟩
    exact ⟨segment, hs, row, ⟨hrow, had⟩, hid, rfl⟩

variable {keys : List Str}

theorem head_of_least (hs : keys.Pairwise (· < ·)) (hm : key ∈ keys)
    (hle : ∀ other ∈ keys, key ≤ other) : keys.head? = some key := by
  cases keys with
  | nil => cases hm
  | cons first rest =>
    rcases mem_cons.mp hm with rfl | hm
    · rfl
    · have hlt := (pairwise_cons.mp hs).1 key hm
      exact absurd (hle first mem_cons_self) (not_le.mpr hlt)

theorem mem_keysPast_of_resident {e : Str × Entry}
    (h : e ∈ v.mapPast start) : e.1 ∈ v.keysPast start := by
  obtain ⟨hm, had⟩ := mem_filter.mp h
  exact mem_filter.mpr ⟨mem_walkKeys.mpr (.inl ⟨e.2, hm⟩), had⟩

theorem mem_keysPast_of_cursor {run : List (Nat × Row)}
    (hrun : run ∈ openSealed v.noted start) (hx : x ∈ run) : x.2.key ∈ v.keysPast start := by
  obtain ⟨had, segment, hs, -, hrow⟩ := mem_openSealed.mp ⟨run, hrun, hx⟩
  exact mem_filter.mpr ⟨mem_walkKeys.mpr (.inr ⟨segment, hs, x.2, hrow, rfl⟩), had⟩

theorem mem_keysPast :
    key ∈ v.keysPast start ↔ (∃ entry, (key, entry) ∈ v.mapPast start) ∨
      ∃ run ∈ openSealed v.noted start, ∃ x ∈ run, rowKey x = key := by
  constructor
  · intro h
    obtain ⟨hm, had⟩ := mem_filter.mp h
    rcases mem_walkKeys.mp hm with ⟨entry, he⟩ | ⟨segment, hs, row, hrow, rfl⟩
    · exact .inl ⟨entry, mem_filter.mpr ⟨he, had⟩⟩
    · obtain ⟨run, hrun, hx⟩ :=
        (mem_openSealed (x := (segment.id, row))).mpr ⟨had, segment, hs, rfl, hrow⟩
      exact .inr ⟨run, hrun, _, hx, rfl⟩
  · rintro (⟨entry, he⟩ | ⟨run, hrun, x, hx, rfl⟩)
    · exact mem_keysPast_of_resident he
    · exact mem_keysPast_of_cursor hrun hx

/-- A merge stands at a bound: its cursors are past it, and its page is the front of the map's
entries past it. -/
structure StandsAt (v : Volume) (start : Bound) (beyond : List (Str × Entry)) (m : Merging) :
    Prop where
  cursors : m.cursors = openSealed v.noted start
  resident : m.resident ++ beyond = v.mapPast start

variable {beyond : List (Str × Entry)} {m : Merging}

theorem nextKey_eq
    (hat : StandsAt v start beyond m) (hpage : m.resident ≠ [] ∨ beyond = []) :
    m.nextKey = (v.keysPast start).head? := by
  obtain ⟨hcur, hres⟩ := hat
  have hsorted := openSealed_sorted v.noted start
  have hkeys := v.keysPast_sorted start
  have hmap := v.mapPast_sorted start
  rw [← hres] at hmap
  unfold Merging.nextKey
  rw [hcur]
  cases hr : m.resident with
  | nil =>
    have hb : beyond = [] := by simpa [hr] using hpage
    have hnomap : v.mapPast start = [] := by rw [← hres, hr, hb]; rfl
    cases hf : Merge.front rowKey (openSealed v.noted start) with
    | none =>
      have hnil : v.keysPast start = [] := by
        rw [eq_nil_iff_forall_not_mem]
        intro key hk
        rcases mem_keysPast.mp hk with ⟨entry, he⟩ | ⟨run, hrun, x, hx, -⟩
        · rw [hnomap] at he
          cases he
        · rw [front_eq_none.mp hf run hrun] at hx
          cases hx
      simp [hnil]
    | some sealed =>
      simp only [head?_nil]
      refine (head_of_least hkeys ?_ ?_).symm
      · exact mem_keysPast.mpr (.inr (front_mem hf))
      · intro other ho
        rcases mem_keysPast.mp ho with ⟨entry, he⟩ | ⟨run, hrun, x, hx, rfl⟩
        · rw [hnomap] at he
          cases he
        · exact front_le hsorted hf run hrun x hx
  | cons first rest =>
    obtain ⟨resident, entry⟩ := first
    rw [hr] at hres hmap
    have hfirst : (resident, entry) ∈ v.mapPast start := by rw [← hres]; simp
    have hmin : ∀ e ∈ v.mapPast start, resident ≤ e.1 := by
      intro e he
      rw [← hres, cons_append] at he
      rcases mem_cons.mp he with rfl | he
      · exact le_refl _
      · exact ((pairwise_cons.mp hmap).1 e he).le
    cases hf : Merge.front rowKey (openSealed v.noted start) with
    | none =>
      simp only [head?_cons]
      refine (head_of_least hkeys (mem_keysPast_of_resident hfirst) ?_).symm
      intro other ho
      rcases mem_keysPast.mp ho with ⟨entry, he⟩ | ⟨run, hrun, x, hx, -⟩
      · exact hmin _ he
      · rw [front_eq_none.mp hf run hrun] at hx
        cases hx
    | some sealed =>
      have hsealed := front_le hsorted hf
      simp only [head?_cons]
      by_cases hlt : sealed < resident
      · rw [if_pos hlt]
        refine (head_of_least hkeys (mem_keysPast.mpr (.inr (front_mem hf))) ?_).symm
        intro other ho
        rcases mem_keysPast.mp ho with ⟨entry, he⟩ | ⟨run, hrun, x, hx, rfl⟩
        · exact (hlt.trans_le (hmin _ he)).le
        · exact hsealed run hrun x hx
      · rw [if_neg hlt]
        refine (head_of_least hkeys (mem_keysPast_of_resident hfirst) ?_).symm
        intro other ho
        rcases mem_keysPast.mp ho with ⟨entry, he⟩ | ⟨run, hrun, x, hx, rfl⟩
        · exact hmin _ he
        · exact (not_lt.mp hlt).trans (hsealed run hrun x hx)

theorem admits_of_le {other : Str} (h : start.admits key = true)
    (hle : key ≤ other) : start.admits other = true := by
  cases start with
  | unbounded => rfl
  | included low => exact decide_eq_true ((of_decide_eq_true h).trans hle)
  | excluded low => exact decide_eq_true ((of_decide_eq_true h).trans_le hle)

theorem filter_past {α : Type} (f : α → Str)
    (h : start.admits key = true) (l : List α) :
    ((l.filter fun a => start.admits (f a)).filter fun a => decide (key < f a)) =
      l.filter fun a => (Bound.excluded key).admits (f a) := by
  rw [filter_filter]
  refine filter_congr fun a _ => ?_
  by_cases hlt : key < f a
  · rw [admits_of_le h hlt.le, Bool.and_true]
    rfl
  · have hno : (Bound.excluded key).admits (f a) = false := decide_eq_false hlt
    rw [hno, decide_eq_false hlt, Bool.false_and]

theorem keysPast_cons
    (h : (v.keysPast start).head? = some key) :
    start.admits key = true ∧ (∀ other ∈ v.keysPast start, key ≤ other) ∧
      v.keysPast start = key :: v.keysPast (.excluded key) := by
  obtain ⟨rest, hrest⟩ := head?_eq_some_iff.mp h
  have hmem : key ∈ v.keysPast start := by rw [hrest]; exact mem_cons_self
  have had : start.admits key = true := (mem_filter.mp hmem).2
  have hlt : ∀ other ∈ rest, key < other := by
    have hs := v.keysPast_sorted start
    rw [hrest] at hs
    exact (pairwise_cons.mp hs).1
  refine ⟨had, ?_, ?_⟩
  · intro other ho
    rw [hrest] at ho
    rcases mem_cons.mp ho with rfl | ho
    · exact le_refl _
    · exact (hlt other ho).le
  · have hpast := filter_past id had v.walkKeys
    change (v.keysPast start).filter _ = v.keysPast (.excluded key) at hpast
    rw [← hpast, hrest, filter_cons_of_neg (by simp)]
    congr 1
    exact (filter_eq_self.mpr fun other ho => by simpa using hlt other ho).symm

section
variable (had : start.admits key = true) (hmin : ∀ other ∈ v.keysPast start, key ≤ other)
include had hmin

theorem pass_openSealed :
    pass rowKey key (openSealed v.noted start) = openSealed v.noted (.excluded key) := by
  rw [pass_eq (openSealed_sorted _ _)
    fun run hrun x hx => hmin _ (mem_keysPast_of_cursor hrun hx)]
  simp only [openSealed, map_map]
  refine map_congr_left fun segment _ => ?_
  simp only [Function.comp_apply, filter_map]
  rw [← filter_past Row.key had segment.footerRows]
  exact congrArg _ (filter_congr fun row _ => decide_eq_decide.mpr Iff.rfl)

theorem onKey_openSealed :
    (openSealed v.noted start).flatMap (onKey rowKey key) = v.rowsOf key := by
  have heq : (openSealed v.noted start).flatMap (onKey rowKey key) =
      (openSealed v.noted start).flatMap fun run => run.filter fun x => decide (rowKey x = key) :=
    flatMap_congr fun run hrun =>
      (onKey_eq (openSealed_sorted _ _ run hrun)
        fun x hx => hmin _ (mem_keysPast_of_cursor hrun hx)).trans
        (filter_congr fun x _ => decide_eq_decide.mpr Iff.rfl)
  rw [heq]
  simp only [openSealed, rowsOf, flatMap_map]
  refine flatMap_congr fun segment _ => ?_
  rw [filter_map, filter_filter]
  congr 1
  refine filter_congr fun row _ => ?_
  by_cases hk : row.key = key
  · simp [rowKey, hk, had]
  · simp [rowKey, hk]

end

/-- Deciding the least key moves the merge past it with what the walk makes of it. -/
theorem decideKey_stands
    (hat : StandsAt v start beyond m) (hpage : m.resident ≠ [] ∨ beyond = [])
    (hhead : (v.keysPast start).head? = some key) :
    StandsAt v (.excluded key) beyond (v.decideKey m key) ∧
      (v.decideKey m key).out = pushFound key m.out (v.walkAnswer key) ∧
      (v.decideKey m key).resume = some key := by
  obtain ⟨hcur, hres⟩ := hat
  obtain ⟨had, hmin, -⟩ := keysPast_cons hhead
  have hpass := pass_openSealed had hmin
  have hrows := onKey_openSealed had hmin
  have hmap : v.mapPast (.excluded key) =
      (v.mapPast start).filter fun e => decide (key < e.1) := (filter_past Prod.fst had _).symm
  -- where no map entry stands on the key, the map has no word on it
  have habsent : (∀ e ∈ v.mapPast start, key < e.1) → v.index.map.get key = none ∧
      v.mapPast (.excluded key) = v.mapPast start := by
    intro hgt
    refine ⟨SortedMap.get_eq_none.mpr fun entry he => ?_, ?_⟩
    · exact absurd (hgt _ (mem_filter.mpr ⟨he, had⟩)) (lt_irrefl key)
    · rw [hmap]
      exact filter_eq_self.mpr fun e he => by simpa using hgt e he
  have hsorted := v.mapPast_sorted start
  rw [← hres] at hsorted
  unfold decideKey
  cases hr : m.resident with
  | nil =>
    have hb : beyond = [] := by simpa [hr] using hpage
    have hnil : v.mapPast start = [] := by rw [← hres, hr, hb]; rfl
    obtain ⟨hget, hsame⟩ := habsent (by simp [hnil])
    refine ⟨⟨?_, ?_⟩, ?_, rfl⟩
    · simp only [hcur, hpass]
    · simp only [hb, hsame, hnil, append_nil]
    · simp only [hcur, hrows, walkAnswer, hget]
  | cons first rest =>
    obtain ⟨resident, entry⟩ := first
    rw [hr] at hres hsorted
    have hafter : ∀ e ∈ rest ++ beyond, resident < e.1 := (pairwise_cons.mp hsorted).1
    have hfirst : (resident, entry) ∈ v.mapPast start := by rw [← hres]; simp
    by_cases hk : resident = key
    · subst hk
      have hget : v.index.map.get resident = some entry :=
        SortedMap.mem_entries.mp (mem_filter.mp hfirst).1
      simp only [if_true, and_true]
      refine ⟨⟨?_, ?_⟩, ?_⟩
      · simp only [hcur, hpass]
      · rw [hmap, ← hres, cons_append, filter_cons_of_neg (by simp)]
        exact (filter_eq_self.mpr fun e he => by simpa using hafter e he).symm
      · simp only [walkAnswer, hget]
    · have hlt : key < resident :=
        lt_of_le_of_ne (hmin _ (mem_keysPast_of_resident hfirst)) (Ne.symm hk)
      obtain ⟨hget, hsame⟩ := habsent <| by
        intro e he
        rw [← hres, cons_append] at he
        rcases mem_cons.mp he with rfl | he
        · exact hlt
        · exact hlt.trans (hafter e he)
      simp only [if_neg hk, and_true]
      refine ⟨⟨?_, ?_⟩, ?_⟩
      · simp only [hcur, hpass]
      · simp only [hsame, hres]
      · simp only [hcur, hrows, walkAnswer, hget]

/-- Every key the map holds, and every key a data row holds, is one the column accepts. -/
structure Accepting (v : Volume) : Prop where
  mapped : ∀ e ∈ v.index.map.entries, v.index.width.accepts e.1 = true
  sealed : ∀ segment ∈ v.noted, ∀ row ∈ segment.rows, row.kind = .data →
    v.index.width.accepts row.key = true

theorem mem_rowsOf :
    x ∈ v.rowsOf key ↔
      x.2.key = key ∧ ∃ segment ∈ v.noted, segment.id = x.1 ∧ x.2 ∈ segment.rows := by
  obtain ⟨id, row⟩ := x
  simp only [rowsOf, mem_flatMap, mem_map, mem_filter, Segment.footerRows,
    mem_sortByKey, decide_eq_true_eq, Prod.mk.injEq]
  constructor
  · rintro ⟨segment, hs, row', ⟨hrow, hk⟩, hid, rfl⟩
    exact ⟨hk, segment, hs, hid, hrow⟩
  · rintro ⟨hk, segment, hs, hid, hrow⟩
    exact ⟨segment, hs, row, ⟨hrow, hk⟩, hid, rfl⟩

theorem accepts_of_walkAnswer (hv : v.Accepting) {entry : Entry}
    (h : v.walkAnswer key = some entry) : v.index.width.accepts key = true := by
  unfold walkAnswer at h
  cases hm : v.index.map.get key with
  | some held => exact hv.mapped _ (SortedMap.mem_entries.mpr hm)
  | none =>
    simp only [hm, sealedAnswer] at h
    cases hn : newestRow v.stands (v.rowsOf key) with
    | none => simp [hn] at h
    | some x =>
      obtain ⟨id, row⟩ := x
      simp only [hn] at h
      split at h
      · rename_i hdata
        have hnewest := newestRow_newest v.stands (v.rowsOf key)
        rw [hn] at hnewest
        obtain ⟨rfl, segment, hs, -, hrow⟩ := mem_rowsOf.mp hnewest.1
        exact hv.sealed segment hs row hrow hdata.1
      · cases h

def Merging.reached (m : Merging) (start : Bound) : Bound :=
  match m.resume with
  | some key => .excluded key
  | none => start

/-- A run midway. The edge is the last key of its page, and the last key decided once the page is
spent. -/
structure Midway (v : Volume) (limit : Nat) (edge : Option Str) (start : Bound)
    (beyond : List (Str × Entry)) (m : Merging) : Prop where
  at_reached : StandsAt v (m.reached start) beyond m
  beyond_nil : edge = none → beyond = []
  at_edge : ∀ last ∈ edge, v.index.width.accepts last = true ∧
    (m.resident.getLast?.map Prod.fst = some last ∨ m.resident = [] ∧ m.resume = some last)
  full : limit ≤ m.out.length → ∃ key, m.resume = some key ∧ v.index.width.accepts key = true

variable {limit : Nat} {edge : Option Str}

theorem Midway.spent_edge
    (h : Midway v limit edge start beyond m)
    (hkey : m.nextKey = some key) (hedge : edge.any (· < key) = false) :
    m.resident ≠ [] ∨ beyond = [] := by
  cases he : edge with
  | none => exact .inr (h.beyond_nil he)
  | some last =>
    left
    intro hnil
    obtain ⟨-, hlast | ⟨-, hresume⟩⟩ := h.at_edge last he
    · simp [hnil] at hlast
    · have hcur := h.at_reached.cursors
      simp only [Merging.reached, hresume] at hcur
      have hfront : Merge.front rowKey m.cursors = some key := by
        simpa [Merging.nextKey, hnil] using hkey
      rw [hcur] at hfront
      obtain ⟨run, hrun, x, hx, rfl⟩ := front_mem hfront
      have hlt : last < rowKey x := of_decide_eq_true (mem_openSealed.mp ⟨run, hrun, hx⟩).1
      simp [he, hlt] at hedge

theorem pushFound_eq (v : Volume) (key : Str) (out : List (Str × Entry)) :
    pushFound key out (v.walkAnswer key) = out ++ v.deliver [key] := by
  cases h : v.walkAnswer key <;> simp [pushFound, deliver, h]

theorem decideKey_midway
    (hv : v.Accepting)
    (h : Midway v limit edge start beyond m) (hroom : ¬ limit ≤ m.out.length)
    (hkey : m.nextKey = some key) (hedge : edge.any (· < key) = false) :
    v.keysPast (m.reached start) = key :: v.keysPast ((v.decideKey m key).reached start) ∧
      (v.decideKey m key).out = m.out ++ v.deliver [key] ∧
      Midway v limit edge start beyond (v.decideKey m key) := by
  have hpage := h.spent_edge hkey hedge
  have hhead : (v.keysPast (m.reached start)).head? = some key := by
    rw [← nextKey_eq h.at_reached hpage, hkey]
  obtain ⟨hat, hout, hresume⟩ := decideKey_stands h.at_reached hpage hhead
  have hreached : (v.decideKey m key).reached start = .excluded key := by
    simp [Merging.reached, hresume]
  refine ⟨?_, by rw [hout, pushFound_eq], ?_, h.beyond_nil, ?_, ?_⟩
  · rw [hreached]
    exact (keysPast_cons hhead).2.2
  · rw [hreached]
    exact hat
  · intro last hl
    obtain ⟨hacc, hlast⟩ := h.at_edge last hl
    refine ⟨hacc, ?_⟩
    cases hr : m.resident with
    | nil =>
      -- a spent page with its edge decided leaves no key to decide
      obtain hlast | ⟨-, hres⟩ := hlast
      · simp [hr] at hlast
      · have had := (keysPast_cons hhead).1
        simp only [Merging.reached, hres] at had
        rw [Option.mem_def.mp hl] at hedge
        exact absurd (of_decide_eq_true had) (by simpa using hedge)
    | cons first rest =>
      obtain ⟨resident, entry⟩ := first
      have hlast : (((resident, entry) :: rest).getLast?).map Prod.fst = some last := by
        rcases hlast with hlast | ⟨hnil, -⟩
        · rwa [hr] at hlast
        · simp [hr] at hnil
      by_cases hk : resident = key
      · have hrest : (v.decideKey m key).resident = rest := by simp [decideKey, hr, hk]
        rw [hrest, hresume]
        cases rest with
        | nil => exact .inr ⟨rfl, by simpa [hk] using hlast⟩
        | cons second rest => exact .inl (by simpa using hlast)
      · have hsame : (v.decideKey m key).resident = m.resident := by simp [decideKey, hr, hk]
        rw [hsame, hr]
        exact .inl hlast
  · intro hfull
    refine ⟨key, hresume, ?_⟩
    rw [hout] at hfull
    cases hw : v.walkAnswer key with
    | some entry => exact accepts_of_walkAnswer hv hw
    | none => simp [pushFound, hw] at hfull; omega

theorem deliver_append (v : Volume) (front rest : List Str) :
    v.deliver (front ++ rest) = v.deliver front ++ v.deliver rest := filterMap_append

/-- One run decides the keys ahead in order. It stops with its page full or past its edge, or with
no key left in sight. -/
theorem mergeLoop_spec (hv : v.Accepting)
    (fuel : Nat) {m' : Merging} {spent : Bool}
    (h : Midway v limit edge start beyond m)
    (hfuel : (v.keysPast (m.reached start)).length < fuel)
    (hloop : v.mergeLoop limit edge fuel m = (m', spent)) :
    (∃ keys, v.keysPast (m.reached start) = keys ++ v.keysPast (m'.reached start) ∧
        m'.out = m.out ++ v.deliver keys ∧ (keys = [] → m' = m)) ∧
      Midway v limit edge start beyond m' ∧
      (if spent then m'.nextKey = none
        else limit ≤ m'.out.length ∨ ∃ key, m'.nextKey = some key ∧ edge.any (· < key) = true) := by
  induction fuel generalizing m with
  | zero => omega
  | succ fuel ih =>
    unfold mergeLoop at hloop
    split at hloop
    · rename_i hfull
      cases hloop
      exact ⟨⟨[], by simp [deliver]⟩, h, .inl hfull⟩
    · rename_i hroom
      cases hkey : m.nextKey with
      | none =>
        simp only [hkey, Prod.mk.injEq] at hloop
        obtain ⟨rfl, rfl⟩ := hloop
        exact ⟨⟨[], by simp [deliver]⟩, h, hkey⟩
      | some key =>
        simp only [hkey] at hloop
        split at hloop
        · rename_i hedge
          cases hloop
          exact ⟨⟨[], by simp [deliver]⟩, h, .inr ⟨key, hkey, hedge⟩⟩
        · rename_i hedge
          obtain ⟨hcons, hout, hmid⟩ :=
            decideKey_midway hv h hroom hkey (Bool.not_eq_true _ ▸ hedge)
          rw [hcons, length_cons] at hfuel
          obtain ⟨⟨keys, hkeys, hout', -⟩, hmid', hstop⟩ := ih hmid (by omega) hloop
          refine ⟨⟨key :: keys, ?_, ?_, by simp⟩, hmid', hstop⟩
          · rw [hcons, hkeys, cons_append]
          · rw [hout', hout, append_assoc, ← deliver_append, singleton_append]

def Bound.Clean (width : KeyWidth) : Bound → Prop
  | .unbounded => True
  | .included key | .excluded key => width.accepts key = true

theorem low_of_clean {width : KeyWidth} (h : Bound.Clean width start) :
    start.low width = start := by
  have hlow : ∀ key, width.accepts key = true → width.lowBound key = key := by
    intro key hk
    cases width with
    | varying => rfl
    | fixed width =>
      have hlen : key.length = width := by simpa [KeyWidth.accepts] using hk
      simp [KeyWidth.lowBound, padTo, ← hlen]
  cases start with
  | unbounded => rfl
  | included key => exact congrArg _ (hlow key h)
  | excluded key => exact congrArg _ (hlow key h)

theorem page_judged (h : Bound.Clean v.index.width start)
    (limit : Nat) : v.index.page start limit true = (v.mapPast start).take limit := by
  simp [ColumnIndex.page, low_of_clean h, mapPast]

/-- Where a playback stands: at a bound its page is taken from, its cursors past it. -/
structure Playback.Good (v : Volume) (playback : Playback) : Prop where
  clean : ∀ reached ∈ playback.reached, Bound.Clean v.index.width reached
  cursors : ∀ reached ∈ playback.reached,
    ∀ cursors ∈ playback.cursors, cursors = openSealed v.noted reached

def Playback.ahead (v : Volume) (playback : Playback) : List Str :=
  match playback.reached with
  | some reached => v.keysPast reached
  | none => []

/-- What a stretch of a playback does: it hands out some of the keys ahead and stands good past
them, having met at least one unless it ran out. -/
structure Advances (v : Volume) (ahead : List Str) (before after : List (Str × Entry))
    (playback : Playback) : Prop where
  good : playback.Good v
  delivered : ∃ keys, ahead = keys ++ playback.ahead v ∧ after = before ++ v.deliver keys ∧
    (playback.reached ≠ none → keys ≠ [])

variable {playback : Playback}

theorem fillMergedPage_spent (v : Volume) (limit fuel : Nat)
    (h : playback.reached = none) (out : List (Str × Entry)) :
    v.fillMergedPage limit fuel playback out = (playback, out) := by
  cases fuel <;> simp [fillMergedPage, h]

theorem deliver_filter (v : Volume) (p : Str → Bool) (keys : List Str) :
    v.deliver (keys.filter p) = (v.deliver keys).filter fun e => p e.1 := by
  induction keys with
  | nil => rfl
  | cons key keys ih =>
    have hcons : ∀ rest, v.deliver (key :: rest) = v.deliver [key] ++ v.deliver rest :=
      fun rest => deliver_append v [key] rest
    rw [hcons keys, filter_append, ← ih]
    cases hp : p key with
    | true =>
      rw [filter_cons_of_pos hp, hcons]
      congr 1
      cases hw : v.walkAnswer key <;> simp [deliver, hw, hp]
    | false =>
      rw [filter_cons_of_neg (by simp [hp])]
      cases hw : v.walkAnswer key <;> simp [deliver, hw, hp]

theorem deliver_sorted (v : Volume) (h : keys.Pairwise (· < ·)) :
    (v.deliver keys).Pairwise fun a b => a.1 < b.1 := by
  refine pairwise_filterMap.mpr (h.imp ?_)
  intro a b hab x hx y hy
  obtain ⟨_, _, rfl⟩ := Option.map_eq_some_iff.mp hx
  obtain ⟨_, _, rfl⟩ := Option.map_eq_some_iff.mp hy
  exact hab

theorem keysPast_of_noted_nil (h : v.noted = []) (start : Bound) :
    v.keysPast start = (v.mapPast start).map Prod.fst := by
  have hnodup : (v.index.map.entries.map Prod.fst).Nodup := by
    rw [List.Nodup, pairwise_map]
    exact v.index.map.sorted.imp fun h => h.ne
  have hwalk : v.walkKeys = v.index.map.entries.map Prod.fst := by
    simp only [walkKeys, h, flatMap_nil, append_nil, hnodup.dedup]
    refine sortByKey_eq id ?_ (fun _ => rfl)
    rw [pairwise_map]
    exact v.index.map.sorted.imp fun h => h.le
  simp only [keysPast, hwalk, mapPast, filter_map]
  rfl

theorem page_unjudged (hv : v.Accepting) (h : v.noted = [])
    (hclean : Bound.Clean v.index.width start) (limit : Nat) :
    v.index.page start limit false = (v.deliver (v.keysPast start)).take limit := by
  simp only [ColumnIndex.page, low_of_clean hclean, keysPast_of_noted_nil h, deliver,
    filterMap_map]
  congr 1
  rw [← filterMap_eq_filter]
  refine filterMap_congr fun e he => ?_
  have hm := (mem_filter.mp he).1
  have hget : v.index.map.get e.1 = some e.2 := SortedMap.mem_entries.mp hm
  have hacc := hv.mapped e hm
  simp only [Function.comp_apply, walkAnswer, hget, mappedAnswer, ColumnIndex.isCoveredKey, hacc,
    Bool.true_and, Bool.false_or, Option.guard]
  split <;> simp_all

theorem keysPast_split {last : Str} (h : last ∈ v.keysPast start) :
    v.keysPast start =
      ((v.keysPast start).filter fun key => decide (key ≤ last)) ++ v.keysPast (.excluded last) := by
  have had : start.admits last = true := (mem_filter.mp h).2
  have hpast : v.keysPast (.excluded last) =
      (v.keysPast start).filter fun key => decide (last < key) :=
    (filter_past id had v.walkKeys).symm
  rw [hpast]
  have hsort := v.keysPast_sorted start
  generalize v.keysPast start = keys at hsort
  clear h hpast
  induction keys with
  | nil => rfl
  | cons key keys ih =>
    obtain ⟨hhead, htail⟩ := pairwise_cons.mp hsort
    by_cases hle : key ≤ last
    · rw [filter_cons_of_pos (by simpa using hle), cons_append,
        filter_cons_of_neg (by simpa using hle), ← ih htail]
    · have hlt : last < key := not_le.mp hle
      have hall : ∀ other ∈ keys, last < other := fun other ho => hlt.trans (hhead other ho)
      rw [filter_cons_of_neg (by simpa using hle), filter_cons_of_pos (by simpa using hlt),
        filter_eq_nil_iff.mpr fun other ho => by simpa using hall other ho,
        filter_eq_self.mpr fun other ho => by simpa using hall other ho, nil_append]

theorem filter_le_last {l : List (Str × Entry)} (hs : l.Pairwise fun a b => a.1 < b.1) {n : Nat}
    {x : Str × Entry} (h : (l.take n).getLast? = some x) :
    (l.filter fun e => decide (e.1 ≤ x.1)) = l.take n := by
  obtain ⟨front, hfront⟩ := getLast?_eq_some_iff.mp h
  have hl : l = l.take n ++ l.drop n := (take_append_drop n l).symm
  rw [hl, pairwise_append, hfront] at hs
  obtain ⟨hpre, -, hacross⟩ := hs
  conv_lhs => rw [hl]
  rw [filter_append, filter_eq_self.mpr, filter_eq_nil_iff.mpr, append_nil]
  · intro e he
    simpa using hacross x (by simp) e he
  · intro e he
    rw [hfront] at he
    rcases mem_append.mp he with he | he
    · simpa using ((pairwise_append.mp hpre).2.2 e he x (by simp)).le
    · simp [mem_singleton.mp he]

theorem pageResident_advances (hv : v.Accepting) (hnoted : v.noted = [])
    (hlimit : 1 ≤ limit) {reached : Bound} (hclean : Bound.Clean v.index.width reached) :
    Advances v (v.keysPast reached) [] (v.pageResident limit reached).2
      (v.pageResident limit reached).1 := by
  have hsort := v.deliver_sorted (v.keysPast_sorted reached)
  simp only [pageResident, page_unjudged hv hnoted hclean]
  generalize hpage : (v.deliver (v.keysPast reached)).take limit = page
  -- a page short of the limit is everything ahead
  have hshort : page.length ≠ limit → page = v.deliver (v.keysPast reached) := by
    intro hne
    rw [← hpage] at hne ⊢
    rw [length_take] at hne
    exact take_of_length_le (by omega)
  cases hlast : page.getLast? with
  | none =>
    have hnil : page = [] := getLast?_eq_none_iff.mp hlast
    refine ⟨⟨by simp, by simp⟩, v.keysPast reached, by simp [Playback.ahead], ?_, by simp⟩
    exact hshort (by simp [hnil]; omega)
  | some x =>
    by_cases hfull : page.length = limit
    · simp only [if_pos hfull]
      have hx : x ∈ v.deliver (v.keysPast reached) := by
        rw [← hpage] at hlast
        exact mem_of_mem_take (mem_of_getLast? hlast)
      obtain ⟨key, hkey, hdel⟩ := mem_filterMap.mp hx
      obtain ⟨entry, hans, rfl⟩ := Option.map_eq_some_iff.mp hdel
      have hupto : (v.deliver ((v.keysPast reached).filter fun k => decide (k ≤ key))) = page := by
        rw [deliver_filter, ← hpage]
        exact filter_le_last hsort (hpage ▸ hlast)
      refine ⟨⟨?_, by simp⟩, _, keysPast_split hkey, ?_, ?_⟩
      · intro reached' hr
        cases hr
        exact accepts_of_walkAnswer hv hans
      · rw [hupto, nil_append]
      · intro _ hnil
        rw [hnil] at hupto
        have : page.length = 0 := by rw [← hupto]; rfl
        omega
    · simp only [if_neg hfull]
      exact ⟨⟨by simp, by simp⟩, v.keysPast reached, by simp [Playback.ahead], hshort hfull, by simp⟩

section
variable (hv : v.Accepting) (hlimit : 1 ≤ limit)
include hv hlimit

theorem mergeRun_advances
    (hgood : playback.Good v) {reached : Bound}
    (hreached : playback.reached = some reached) {out : List (Str × Entry)}
    (hroom : out.length < limit) (hfuel : (v.keysPast reached).length < v.walkFuel) :
    Advances v (v.keysPast reached) out (v.mergeRun limit playback reached out).2
      (v.mergeRun limit playback reached out).1 := by
  have hclean := hgood.clean reached hreached
  have hpage := page_judged hclean limit
  have hcursors : playback.cursors.getD (openSealed v.noted reached) = openSealed v.noted reached := by
    cases hc : playback.cursors with
    | none => rfl
    | some cursors => exact hgood.cursors reached hreached cursors hc
  unfold mergeRun
  simp only [hcursors, hpage]
  generalize hresident : (v.mapPast reached).take limit = resident
  generalize hedge : (if resident.length = limit then resident.getLast?.map Prod.fst else none) = edge
  have hlen : resident.length = min limit (v.mapPast reached).length := by
    rw [← hresident, length_take]
  -- the page leaves entries behind only when it is full, and then it has an edge
  have hnone : edge = none ↔ resident.length < limit := by
    rw [← hedge]
    split
    · rename_i hfull
      have hne : resident ≠ [] := by
        rintro rfl
        simp at hfull
        omega
      simp [hne, hfull]
    · simp only [true_iff]
      omega
  have hmid : Midway v limit edge reached ((v.mapPast reached).drop limit)
      ⟨resident, openSealed v.noted reached, out, none⟩ := by
    refine ⟨⟨rfl, ?_⟩, ?_, ?_, ?_⟩
    · rw [← hresident]
      exact take_append_drop _ _
    · intro he
      have := hnone.mp he
      exact drop_eq_nil_of_le (by omega)
    · intro last hl
      have hlast : resident.getLast?.map Prod.fst = some last := by
        rw [← hedge] at hl
        split at hl
        · exact hl
        · cases hl
      refine ⟨?_, .inl hlast⟩
      obtain ⟨e, he, rfl⟩ := Option.map_eq_some_iff.mp hlast
      have hmem : e ∈ v.mapPast reached := by
        rw [← hresident] at he
        exact mem_of_mem_take (mem_of_getLast? he)
      exact hv.mapped e (mem_filter.mp hmem).1
    · intro hfull
      exact absurd hroom (Nat.not_lt.mpr hfull)
  cases hloop : v.mergeLoop limit edge v.walkFuel
      ⟨resident, openSealed v.noted reached, out, none⟩ with
  | mk m spent =>
  obtain ⟨⟨keys, hkeys, hout, hsame⟩, hmid', hstop⟩ := mergeLoop_spec hv v.walkFuel hmid hfuel hloop
  change v.keysPast reached = keys ++ _ at hkeys
  -- either the column is spent, or the run stands on an accepted key it decided
  have hcases : (spent = true ∧ resident.length < limit ∧ v.keysPast (m.reached reached) = []) ∨
      (¬ (spent = true ∧ resident.length < limit) ∧
        ∃ key, m.resume = some key ∧ v.index.width.accepts key = true) := by
    by_cases hend : spent = true ∧ resident.length < limit
    · obtain ⟨hs, hshort⟩ := hend
      rw [if_pos hs] at hstop
      have hnext := nextKey_eq hmid'.at_reached (.inr (hmid'.beyond_nil (hnone.mpr hshort)))
      rw [hstop] at hnext
      exact .inl ⟨hs, hshort, head?_eq_none_iff.mp hnext.symm⟩
    · refine .inr ⟨hend, ?_⟩
      cases spent with
      | false =>
        simp only [Bool.false_eq_true, if_false] at hstop
        rcases hstop with hfull | ⟨key, hnext, hpast⟩
        · exact hmid'.full hfull
        · obtain ⟨last, he, hlt⟩ := (Option.any_eq_true _ _).mp hpast
          obtain ⟨hacc, hlast | ⟨-, hres⟩⟩ := hmid'.at_edge last he
          · exfalso
            obtain ⟨e, he', rfl⟩ := Option.map_eq_some_iff.mp hlast
            have hmem : e ∈ m.resident := mem_of_getLast? he'
            have hne : m.resident ≠ [] := ne_nil_of_mem hmem
            rw [nextKey_eq hmid'.at_reached (.inl hne)] at hnext
            have hin : e ∈ v.mapPast (m.reached reached) := by
              rw [← hmid'.at_reached.resident]
              exact mem_append_left _ hmem
            have hle := (keysPast_cons hnext).2.1 _ (mem_keysPast_of_resident hin)
            exact absurd (of_decide_eq_true hlt) (not_lt.mpr hle)
          · exact ⟨last, hres, hacc⟩
      | true =>
        simp only [if_true] at hstop
        have hne : edge ≠ none := fun he => hend ⟨rfl, hnone.mp he⟩
        obtain ⟨last, he⟩ := Option.ne_none_iff_exists'.mp hne
        obtain ⟨hacc, hlast | ⟨-, hres⟩⟩ := hmid'.at_edge last he
        · exfalso
          cases hr : m.resident with
          | nil => simp [hr] at hlast
          | cons first rest =>
            unfold Merging.nextKey at hstop
            rw [hr] at hstop
            cases hf : Merge.front rowKey m.cursors with
            | none => simp [hf] at hstop
            | some sealed =>
              simp only [head?_cons, hf] at hstop
              split at hstop <;> cases hstop
        · exact ⟨last, hres, hacc⟩
  rcases hcases with ⟨hs, hshort, hnil⟩ | ⟨hend, key, hres, hacc⟩
  · simp only [hs, hshort, decide_true, Bool.and_self, if_true]
    refine ⟨⟨by simp, by simp⟩, keys, ?_, hout, by simp⟩
    rw [hkeys, hnil]
    rfl
  · have hex : (spent && decide (resident.length < limit)) = false := by
      simpa using hend
    have hto : m.reached reached = .excluded key := by simp [Merging.reached, hres]
    simp only [hex, Bool.false_eq_true, if_false, hres, Option.getD_some]
    refine ⟨⟨?_, ?_⟩, keys, ?_, hout, ?_⟩
    · intro reached' hr
      cases hr
      exact hacc
    · intro reached' hr cursors hc
      cases hr
      cases hc
      rw [hmid'.at_reached.cursors, hto]
    · rw [hkeys, hto]
      rfl
    · intro _ hnil
      have := hsame hnil
      rw [this] at hres
      cases hres

theorem fillMergedPage_advances
    (fuel : Nat) (hgood : playback.Good v) {out : List (Str × Entry)}
    (hroom : out.length < limit) (hfuel : (playback.ahead v).length < fuel)
    (hwalk : fuel ≤ v.walkFuel) :
    Advances v (playback.ahead v) out (v.fillMergedPage limit fuel playback out).2
      (v.fillMergedPage limit fuel playback out).1 := by
  induction fuel generalizing playback out with
  | zero => omega
  | succ fuel ih =>
    cases hr : playback.reached with
    | none =>
      rw [fillMergedPage_spent _ _ _ hr]
      exact ⟨hgood, [], by simp [deliver, hr]⟩
    | some reached =>
      have hahead : playback.ahead v = v.keysPast reached := by simp [Playback.ahead, hr]
      rw [hahead] at hfuel ⊢
      have hrun := mergeRun_advances hv hlimit hgood hr hroom (by omega)
      simp only [fillMergedPage, hr, if_neg (Nat.not_le.mpr hroom)]
      generalize v.mergeRun limit playback reached out = run at hrun ⊢
      obtain ⟨playback', out'⟩ := run
      obtain ⟨hgood', keys, hkeys, hout, hsome⟩ := hrun
      cases hr' : playback'.reached with
      | none =>
        rw [fillMergedPage_spent _ _ _ hr']
        exact ⟨hgood', keys, hkeys, hout, by simp [hr']⟩
      | some next =>
        have hne : keys ≠ [] := hsome (by simp [hr'])
        by_cases hfull : limit ≤ out'.length
        · have hstay : v.fillMergedPage limit fuel playback' out' = (playback', out') := by
            cases fuel <;> simp [fillMergedPage, hr', hfull]
          rw [hstay]
          exact ⟨hgood', keys, hkeys, hout, fun _ => hne⟩
        · have hshort : (playback'.ahead v).length < fuel := by
            have hlen := congrArg length hkeys
            have hpos := length_pos_iff.mpr hne
            rw [length_append] at hlen
            simp only at hlen
            omega
          obtain ⟨hgood'', more, hmore, hout', -⟩ :=
            ih hgood' (Nat.not_le.mp hfull) hshort (by omega)
          refine ⟨hgood'', keys ++ more, ?_, ?_, by simp [hne]⟩
          · rw [hkeys, hmore, append_assoc]
          · rw [hout', show out' = _ from hout, deliver_append, append_assoc]

theorem pageFrom_advances
    (hgood : playback.Good v) {reached : Bound}
    (hreached : playback.reached = some reached)
    (hfuel : (v.keysPast reached).length < v.walkFuel) :
    Advances v (v.keysPast reached) [] (v.pageFrom limit playback reached).2
      (v.pageFrom limit playback reached).1 := by
  unfold pageFrom
  by_cases hnoted : v.noted.isEmpty
  · rw [if_pos hnoted]
    exact pageResident_advances hv (List.isEmpty_iff.mp hnoted) hlimit (hgood.clean _ hreached)
  · rw [if_neg hnoted]
    have hahead : playback.ahead v = v.keysPast reached := by simp [Playback.ahead, hreached]
    rw [← hahead] at hfuel ⊢
    exact fillMergedPage_advances hv hlimit _ hgood hlimit hfuel (le_refl _)

theorem walkPages_eq (fuel : Nat)
    (hgood : playback.Good v) (out : List (Str × Entry))
    (hfuel : (playback.ahead v).length < fuel) (hwalk : fuel ≤ v.walkFuel) :
    v.walkPages limit fuel playback out = some (out ++ v.deliver (playback.ahead v)) := by
  induction fuel generalizing playback out with
  | zero => omega
  | succ fuel ih =>
    cases hr : playback.reached with
    | none => simp [walkPages, hr, Playback.ahead, deliver]
    | some reached =>
      have hahead : playback.ahead v = v.keysPast reached := by simp [Playback.ahead, hr]
      rw [hahead] at hfuel ⊢
      have hpage := pageFrom_advances hv hlimit hgood hr (by omega)
      unfold walkPages
      simp only [hr]
      generalize v.pageFrom limit playback reached = next at hpage ⊢
      obtain ⟨playback', page⟩ := next
      obtain ⟨hgood', keys, hkeys, hdel, hsome⟩ := hpage
      have hdel : page = v.deliver keys := by simpa using hdel
      rw [hkeys, deliver_append, ← hdel, ← append_assoc]
      cases hr' : playback'.reached with
      | none => cases fuel <;> simp [walkPages, hr', Playback.ahead, deliver]
      | some next =>
        refine ih hgood' _ ?_ (by omega)
        change (playback'.ahead v).length < fuel
        have hlen := congrArg length hkeys
        have hpos := length_pos_iff.mpr (hsome (by simp [hr']))
        rw [length_append] at hlen
        simp only at hlen
        omega

end

theorem walkKeys_lt_walkFuel (v : Volume) : v.walkKeys.length < v.walkFuel := by
  have hdedup := (dedup_sublist (v.index.map.entries.map Prod.fst ++
    v.noted.flatMap fun segment => segment.rows.map Row.key)).length_le
  simp only [length_append, length_map, length_flatMap] at hdedup
  simp only [walkKeys, length_sortByKey, walkFuel, length_flatMap]
  omega

theorem walk_eq (hv : v.Accepting) (hlimit : 1 ≤ limit) :
    v.walk limit = some (v.deliver v.walkKeys) := by
  have hall : v.keysPast .unbounded = v.walkKeys := filter_eq_self.mpr fun _ _ => rfl
  have hgood : Playback.Good v ⟨some .unbounded, none⟩ := by
    refine ⟨?_, by simp⟩
    rintro reached hr
    cases hr
    trivial
  have hlen : (v.keysPast .unbounded).length < v.walkFuel := by
    rw [hall]
    exact v.walkKeys_lt_walkFuel
  rw [walk, walkPages_eq hv hlimit _ hgood _ hlen (le_refl _)]
  simp [Playback.ahead, hall]

theorem mem_deliver {entry : Entry} :
    (key, entry) ∈ v.deliver keys ↔ key ∈ keys ∧ v.walkAnswer key = some entry := by
  simp only [deliver, mem_filterMap, Option.map_eq_some_iff, Prod.mk.injEq]
  constructor
  · rintro ⟨k, hk, e, he, rfl, rfl⟩
    exact ⟨hk, he⟩
  · rintro ⟨hk, he⟩
    exact ⟨key, hk, entry, he, rfl, rfl⟩

end Volume

end Reel
