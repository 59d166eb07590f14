import Reel.Append.Barrier
import Reel.Library.Threads

/-!
What the barrier keeps over every run: who is inside is counted where each client stands, and a group's
joiners move under a leader that waits for them. A read over several keys therefore never runs beside a
batch's moves, and a whole-set read answers only from a fill that none ran beside.
-/

set_option autoImplicit false

namespace Reel
open Threads List

/-- Where a client stands towards the queue. -/
inductive Place where
  | outside
  | reads
  | enters
  | holds
  | leaves

namespace Place

def shared : Place → Nat
  | .reads => 1
  | _ => 0

def exclusive : Place → Nat
  | .enters | .holds | .leaves => 1
  | _ => 0

def active : Place → Nat
  | .holds => 1
  | _ => 0

end Place

/-- What a client is to a group of batches. -/
inductive Part where
  | apart
  | finds (group : Nat)
  | joins (group : Nat)
  | follows (group : Nat)
  | gathers (group : Nat)
  | runs (group : Nat)
  | closes (group : Nat)

namespace Part

def finding : Part → Nat
  | .finds _ => 1
  | _ => 0

def finds' (g : Nat) : Part → Nat
  | .finds h => if h = g then 1 else 0
  | _ => 0

def joined (g : Nat) : Part → Nat
  | .joins h | .follows h => if h = g then 1 else 0
  | _ => 0

def following (g : Nat) : Part → Nat
  | .follows h => if h = g then 1 else 0
  | _ => 0

def leads (g : Nat) : Part → Nat
  | .gathers h | .runs h | .closes h => if h = g then 1 else 0
  | _ => 0

def gathering (g : Nat) : Part → Nat
  | .gathers h | .runs h => if h = g then 1 else 0
  | _ => 0

def unopened (g : Nat) : Part → Nat
  | .gathers h => if h = g then 1 else 0
  | _ => 0

def group : Part → Option Nat
  | .finds g | .joins g | .follows g | .gathers g | .runs g | .closes g => some g
  | .apart => none

theorem zero_of_group {part : Part} {g : Nat} (h : part.group ≠ some g) :
    finds' g part = 0 ∧ joined g part = 0 ∧ following g part = 0 ∧ leads g part = 0 ∧
      gathering g part = 0 ∧ unopened g part = 0 := by
  cases part <;> simp_all [group, finds', joined, following, leads, gathering, unopened]

end Part

def Task.part : Task → Part
  | .lead g => .gathers g
  | _ => .apart

def Task.op : Task → BarrierOp
  | .reading => .reading
  | .readingAll => .readingAll
  | .publishing => .publishing
  | .lead _ => .publishGrouped

namespace ClientStage

def place : ClientStage → Place
  | .reading | .fillingHeld _ | .filled _ => .reads
  | .entered _ => .enters
  | .holding _ | .opened _ | .moving .alone | .moving (.leader _) | .moved .alone | .moved (.leader _)
  | .closing _ | .finishing => .holds
  | .leaving => .leaves
  | _ => .outside

def part : ClientStage → Part
  | .enter task | .waiting _ task => task.part
  | .entered (some g) | .holding (some g) => .gathers g
  | .opened g | .moving (.leader g) | .moved (.leader g) => .runs g
  | .closing g => .closes g
  | .found g => .finds g
  | .joined g => .joins g
  | .moving (.joiner g) | .moved (.joiner g) => .follows g
  | _ => .apart

theorem leads_le (g : Nat) (stage : ClientStage) :
    stage.part.leads g ≤ stage.part.unopened g + stage.place.active := by
  cases stage with
  | enter task => cases task <;> simp [part, Task.part, Part.leads, Part.unopened]
  | waiting place' task => cases task <;> simp [part, Task.part, Part.leads, Part.unopened]
  | entered group => cases group <;> simp [part, Part.leads, Part.unopened]
  | holding group => cases group <;> simp [part, Part.leads, Part.unopened]
  | moving role =>
    cases role with
    | leader h => simp only [part, place, Part.leads, Place.active]; split <;> simp
    | alone => simp [part, Part.leads]
    | joiner h => simp [part, Part.leads]
  | moved role =>
    cases role with
    | leader h => simp only [part, place, Part.leads, Place.active]; split <;> simp
    | alone => simp [part, Part.leads]
    | joiner h => simp [part, Part.leads]
  | opened group => simp [part, place, Part.leads, Place.active]; split <;> simp
  | closing group => simp [part, place, Part.leads, Place.active]; split <;> simp
  | _ => simp [part, Part.leads]

end ClientStage

theorem Client.disturb_place (client : Client) : client.disturb.stage.place = client.stage.place := by
  unfold Client.disturb
  split <;> simp_all [ClientStage.place]

theorem Client.disturb_part (client : Client) : client.disturb.stage.part = client.stage.part := by
  unfold Client.disturb
  split <;> simp_all [ClientStage.part]

namespace Barrier

def places (s : Barrier) (f : Place → Nat) : Nat := total (fun client => f client.stage.place) s.clients

def parts (s : Barrier) (f : Part → Nat) : Nat := total (fun client => f client.stage.part) s.clients

variable {s s' : Barrier} {i : Nat} {client : Client}

section
variable (hi : s.clients[i]? = some client)
include hi

theorem places_go (stage : ClientStage) (f : Place → Nat) :
    (s.go i client stage).places f + f client.stage.place = s.places f + f stage.place :=
  total_set (f := fun client : Client => f client.stage.place) hi { client with stage }

theorem parts_go (stage : ClientStage) (f : Part → Nat) :
    (s.go i client stage).parts f + f client.stage.part = s.parts f + f stage.part :=
  total_set (f := fun client : Client => f client.stage.part) hi { client with stage }

theorem places_beginMoves (role : Role) (f : Place → Nat) :
    (s.beginMoves i client role).places f + f client.stage.place =
      s.places f + f (ClientStage.moving role).place := by
  unfold places beginMoves
  rw [total_map]
  simp only [Client.disturb_place]
  exact total_set (f := fun client : Client => f client.stage.place) hi _

theorem parts_beginMoves (role : Role) (f : Part → Nat) :
    (s.beginMoves i client role).parts f + f client.stage.part =
      s.parts f + f (ClientStage.moving role).part := by
  unfold parts beginMoves
  rw [total_map]
  simp only [Client.disturb_part]
  exact total_set (f := fun client : Client => f client.stage.part) hi _

end

structure Counted (s : Barrier) : Prop where
  readers : s.readers = s.places Place.shared
  publishing : s.isPublishing.toNat = s.places Place.exclusive
  apart : s.isPublishing = true → s.readers = 0
  started : s.started = s.finished + s.places Place.active

theorem Counted.move (h : s.Counted) {old new : Place}
    (hplaces : ∀ f, s'.places f + f old = s.places f + f new)
    (hreaders : s'.readers + old.shared = s.readers + new.shared)
    (hpublishing : s'.isPublishing.toNat + old.exclusive = s.isPublishing.toNat + new.exclusive)
    (hapart : s'.isPublishing = true → s'.readers = 0)
    (hstarted : s'.started + s.finished + old.active = s.started + s'.finished + new.active) : s'.Counted := by
  have hshared := hplaces Place.shared
  have hexclusive := hplaces Place.exclusive
  have hactive := hplaces Place.active
  have := h.readers
  have := h.publishing
  have := h.started
  exact ⟨by omega, by omega, hapart, by omega⟩

theorem active_le_exclusive (s : Barrier) : s.places Place.active ≤ s.places Place.exclusive := by
  refine total_mono (fun c => ?_) s.clients
  cases c.stage.place <;> simp [Place.active, Place.exclusive]

def gathers (s : Barrier) (g : Nat) : Nat := if s.gathering = some g then 1 else 0

/-- What is true of one group: it is open only once its leader has opened it, its joiners have a leader,
and nobody finds it but while it gathers. -/
structure GroupAt (s : Barrier) (g : Nat) : Prop where
  found : 0 < s.parts (Part.finds' g) → s.gathers g = 1
  joined : s.joined g = s.parts (Part.joined g)
  leads : s.parts (Part.leads g) ≤ 1
  followed : 0 < s.parts (Part.joined g) → s.parts (Part.leads g) = 1
  gathering : s.parts (Part.gathering g) = s.gathers g
  opened : (s.opened g).toNat = 1 → s.parts (Part.unopened g) = 0
  following : 0 < s.parts (Part.following g) → (s.opened g).toNat = 1
  fresh : s.nextGroup ≤ g → s.parts (Part.leads g) = 0 ∧ (s.opened g).toNat = 0 ∧ s.gathers g = 0

structure Grouped (s : Barrier) : Prop where
  gate : s.gate.toNat = s.parts Part.finding
  group : ∀ g, s.GroupAt g

theorem gathers_congr (h : s'.gathering = s.gathering) (g : Nat) : s'.gathers g = s.gathers g := by
  rw [gathers, h, gathers]

theorem GroupAt.moved {g : Nat} (h : s.GroupAt g) {old new : Part}
    (hparts : ∀ f, s'.parts f + f old = s.parts f + f new) :
    (s'.parts (Part.finds' g) + old.finds' g = s.parts (Part.finds' g) + new.finds' g ∧
      s'.parts (Part.joined g) + old.joined g = s.parts (Part.joined g) + new.joined g ∧
      s'.parts (Part.following g) + old.following g = s.parts (Part.following g) + new.following g ∧
      s'.parts (Part.leads g) + old.leads g = s.parts (Part.leads g) + new.leads g ∧
      s'.parts (Part.gathering g) + old.gathering g = s.parts (Part.gathering g) + new.gathering g ∧
      s'.parts (Part.unopened g) + old.unopened g = s.parts (Part.unopened g) + new.unopened g) ∧
    (0 < s.parts (Part.finds' g) → s.gathers g = 1) ∧ s.joined g = s.parts (Part.joined g) ∧
    s.parts (Part.leads g) ≤ 1 ∧ (0 < s.parts (Part.joined g) → s.parts (Part.leads g) = 1) ∧
    s.parts (Part.gathering g) = s.gathers g ∧ ((s.opened g).toNat = 1 → s.parts (Part.unopened g) = 0) ∧
    (0 < s.parts (Part.following g) → (s.opened g).toNat = 1) ∧
    (s.nextGroup ≤ g → s.parts (Part.leads g) = 0 ∧ (s.opened g).toNat = 0 ∧ s.gathers g = 0) :=
  ⟨⟨hparts _, hparts _, hparts _, hparts _, hparts _, hparts _⟩, h.found, h.joined, h.leads, h.followed,
    h.gathering, h.opened, h.following, h.fresh⟩

theorem GroupAt.beside {g : Nat} (h : s.GroupAt g) {old new : Part} (hold : old.group ≠ some g)
    (hnew : new.group ≠ some g) (hparts : ∀ f, s'.parts f + f old = s.parts f + f new)
    (hgathers : s'.gathers g = s.gathers g) (hjoined : s'.joined g = s.joined g)
    (hopened : s'.opened g = s.opened g) (hnext : s.nextGroup ≤ s'.nextGroup) : s'.GroupAt g := by
  obtain ⟨hold1, hold2, hold3, hold4, hold5, hold6⟩ := Part.zero_of_group hold
  obtain ⟨hnew1, hnew2, hnew3, hnew4, hnew5, hnew6⟩ := Part.zero_of_group hnew
  have hmoved := h.moved hparts
  rw [← hopened] at hmoved
  constructor <;> omega

theorem Grouped.same (h : s.Grouped) (part : Part) (hparts : ∀ f, s'.parts f + f part = s.parts f + f part)
    (hgate : s'.gate = s.gate) (hgathering : s'.gathering = s.gathering) (hjoined : s'.joined = s.joined)
    (hopened : s'.opened = s.opened) (hnext : s'.nextGroup = s.nextGroup) : s'.Grouped := by
  have hsame : ∀ f, s'.parts f + f .apart = s.parts f + f .apart := by
    intro f
    have := hparts f
    omega
  refine ⟨?_, fun g => ?_⟩
  · have := hparts Part.finding
    rw [hgate, h.gate]
    omega
  · have hapart : Part.apart.group ≠ some g := nofun
    exact (h.group g).beside hapart hapart hsame (gathers_congr hgathering g) (congrFun hjoined g)
      (congrFun hopened g) hnext.ge

theorem gathering_le_leads (s : Barrier) (g : Nat) : s.parts (Part.gathering g) ≤ s.parts (Part.leads g) := by
  refine total_mono (fun c => ?_) s.clients
  cases c.stage.part <;> simp [Part.gathering, Part.leads]

theorem unopened_le_leads (s : Barrier) (g : Nat) : s.parts (Part.unopened g) ≤ s.parts (Part.leads g) := by
  refine total_mono (fun c => ?_) s.clients
  cases c.stage.part <;> simp [Part.unopened, Part.leads]

theorem following_le_joined (s : Barrier) (g : Nat) :
    s.parts (Part.following g) ≤ s.parts (Part.joined g) := by
  refine total_mono (fun c => ?_) s.clients
  cases c.stage.part <;> simp [Part.following, Part.joined]

theorem finds_le_finding (s : Barrier) (g : Nat) : s.parts (Part.finds' g) ≤ s.parts Part.finding := by
  refine total_mono (fun c => ?_) s.clients
  cases c.stage.part <;> simp [Part.finds', Part.finding]
  split <;> simp

theorem Grouped.active_of_following (h : s.Grouped) {g : Nat} (hopen : (s.opened g).toNat = 1)
    (hjoined : 0 < s.parts (Part.joined g)) : 0 < s.places Place.active := by
  have hle : s.parts (Part.leads g) ≤ s.parts (Part.unopened g) + s.places Place.active := by
    unfold parts places
    rw [← total_add]
    exact total_mono (fun c => c.stage.leads_le g) s.clients
  have := (h.group g).opened hopen
  have := (h.group g).followed hjoined
  omega

structure Queued (s : Barrier) : Prop where
  places : ∀ waiter ∈ s.waiting, waiter.place < s.nextPlace
  wants : ∀ client ∈ s.clients, ∀ place task, client.stage = .waiting place task →
    place < s.nextPlace ∧ ∀ waiter ∈ s.waiting, waiter.place = place → waiter.want = task.want

variable {task : Task}

theorem Queued.free (h : s.Queued) {place : Nat} (hc : client ∈ s.clients)
    (hstage : client.stage = .waiting place task) (hmay : s.mayEnter place = true) :
    s.isPublishing = false ∧ (task.want = .exclusive → s.readers = 0) := by
  unfold mayEnter at hmay
  cases hfront : s.waiting.head? with
  | none => simp [hfront] at hmay
  | some front =>
    have hin : front ∈ s.waiting := mem_of_mem_head? (by rw [hfront]; rfl)
    simp only [hfront, Bool.and_eq_true, decide_eq_true_eq] at hmay
    have hwant := (h.wants client hc place task hstage).2 front hin hmay.1
    rw [← hwant]
    cases hw : front.want with
    | shared => simpa [hw] using hmay.2
    | exclusive =>
      simp only [hw, Bool.and_eq_true, Bool.not_eq_true', decide_eq_true_eq] at hmay
      exact ⟨hmay.2.1, fun _ => hmay.2.2⟩

/-- A client's stages belong to what it called, and its moves have been run once from where they begin
on. -/
def Fits (client : Client) : Prop :=
  match client.stage with
  | .call => client.ran = 0
  | .enter task | .waiting _ task => client.op = task.op ∧ client.ran = 0
  | .reading => client.op = .reading ∧ client.ran = 0
  | .fillingHeld _ | .filled _ | .probe _ | .probed _ _ | .filling _ _ _ | .checking _ _ _ | .done (some _) =>
    client.op = .readingAll ∧ client.ran = 0
  | .entered none | .holding none => client.op = .publishing ∧ client.ran = 0
  | .entered (some _) | .holding (some _) | .opened _ | .found _ | .joined _ =>
    client.op = .publishGrouped ∧ client.ran = 0
  | .moving .alone | .moved .alone => client.op = .publishing ∧ client.ran = 1
  | .moving _ | .moved _ | .closing _ => client.op = .publishGrouped ∧ client.ran = 1
  | .finishing | .leaving => (client.op = .publishing ∨ client.op = .publishGrouped) ∧ client.ran = 1
  | .done none => client.op = .reading ∧ client.ran = 0 ∨
      (client.op = .publishing ∨ client.op = .publishGrouped) ∧ client.ran = 1

/-- A fill outside the queue is clean unless a batch has started since its count was read, and one
inside it is clean. -/
def FillFits (started finished : Nat) (client : Client) : Prop :=
  match client.stage with
  | .filling _ quiet clean | .checking _ quiet clean => quiet ≤ finished ∧ (started = quiet → clean = true)
  | .fillingHeld clean | .filled clean | .done (some clean) => clean = true
  | _ => True

structure Inv (s : Barrier) : Prop where
  counted : s.Counted
  grouped : s.Grouped
  queued : s.Queued
  fits : ∀ client ∈ s.clients, Fits client
  fills : ∀ client ∈ s.clients, FillFits s.started s.finished client

variable {role : Role}

theorem Inv.active_of_moving (h : s.Inv) (hc : client ∈ s.clients)
    (hstage : client.stage = .moving role) : 0 < s.places Place.active := by
  have hplace := le_total (f := fun client : Client => Place.active client.stage.place) hc
  cases role with
  | alone =>
    simp only [hstage, ClientStage.place, Place.active] at hplace
    exact hplace
  | leader g =>
    simp only [hstage, ClientStage.place, Place.active] at hplace
    exact hplace
  | joiner g =>
    have hfollow := le_total (f := fun client : Client => Part.following g client.stage.part) hc
    simp only [hstage, ClientStage.part, Part.following, if_true] at hfollow
    have hjoined := hfollow.trans (following_le_joined s g)
    exact h.grouped.active_of_following ((h.grouped.group g).following hfollow) hjoined

theorem Inv.isQuiet (h : s.Inv) (hnone : s.places Place.active = 0) : s.isQuiet = true := by
  unfold Barrier.isQuiet
  simp only [Bool.not_eq_true', any_eq_false]
  intro c hc hmoving
  unfold Client.isMoving at hmoving
  split at hmoving
  · rename_i role hstage
    have := h.active_of_moving hc hstage
    omega
  · cases hmoving

theorem Inv.no_active_of_reads (h : s.Inv) (hc : client ∈ s.clients)
    (hreads : client.stage.place = .reads) : s.places Place.active = 0 := by
  have hplace := le_total (f := fun client : Client => Place.shared client.stage.place) hc
  simp only [hreads, Place.shared] at hplace
  have hreaders : 0 < s.readers := h.counted.readers ▸ hplace
  cases hp : s.isPublishing with
  | true =>
    have := h.counted.apart hp
    omega
  | false =>
    have hexcl := h.counted.publishing
    have := active_le_exclusive s
    rw [hp] at hexcl
    simp only [Bool.toNat_false] at hexcl
    omega

theorem Grouped.lead (h : s.Grouped) (hnone : s.gathering = none)
    (hparts : ∀ f, s'.parts f + f .apart = s.parts f + f (.gathers s.nextGroup)) (hgate : s'.gate = s.gate)
    (hgathering : s'.gathering = some s.nextGroup) (hjoined : s'.joined = s.joined)
    (hopened : s'.opened = s.opened) (hnext : s'.nextGroup = s.nextGroup + 1) : s'.Grouped := by
  refine ⟨?_, fun g => ?_⟩
  · rw [hgate, h.gate]
    exact (hparts Part.finding).symm
  have hgathers : s.gathers g = 0 := by simp [gathers, hnone]
  by_cases hg : s.nextGroup = g
  · subst hg
    have hgathers' : s'.gathers s.nextGroup = 1 := by simp [gathers, hgathering]
    have hmoved := (h.group s.nextGroup).moved hparts
    simp only [Part.finds', Part.joined, Part.following, Part.leads, Part.gathering, Part.unopened,
      if_true] at hmoved
    rw [← hopened, ← hjoined] at hmoved
    constructor <;> omega
  · have hgathers' : s'.gathers g = 0 := by simp [gathers, hgathering, hg]
    exact (h.group g).beside (by nofun) (by simpa [Part.group] using hg) hparts (by omega)
      (congrFun hjoined g) (congrFun hopened g) (by omega)

theorem Grouped.find (h : s.Grouped) {group : Nat} (hfree : s.gate = false) (hsome : s.gathering = some group)
    (hparts : ∀ f, s'.parts f + f .apart = s.parts f + f (.finds group)) (hgate : s'.gate = true)
    (hgathering : s'.gathering = s.gathering) (hjoined : s'.joined = s.joined)
    (hopened : s'.opened = s.opened) (hnext : s'.nextGroup = s.nextGroup) : s'.Grouped := by
  refine ⟨?_, fun g => ?_⟩
  · have hold := h.gate
    have hfinding := hparts Part.finding
    rw [hfree] at hold
    rw [hgate]
    simp only [Part.finding, Bool.toNat_false, Bool.toNat_true] at *
    omega
  have hgathers := gathers_congr hgathering g
  by_cases hg : group = g
  · subst hg
    have hone : s.gathers group = 1 := by simp [gathers, hsome]
    have hmoved := (h.group group).moved hparts
    simp only [Part.finds', Part.joined, Part.following, Part.leads, Part.gathering, Part.unopened,
      if_true] at hmoved
    rw [← hopened, ← hjoined] at hmoved
    constructor <;> omega
  · exact (h.group g).beside (by nofun) (by simpa [Part.group] using hg) hparts hgathers
      (congrFun hjoined g) (congrFun hopened g) hnext.ge

section
variable (h : s.Grouped) {group : Nat}
include h

theorem Grouped.within {old new : Part} (hold : old.group = some group)
    (hnew : new.group = some group ∨ new.group = none)
    (hparts : ∀ f, s'.parts f + f old = s.parts f + f new)
    (hgate : s'.gate.toNat + old.finding = s.gate.toNat + new.finding)
    (hgathering : ∀ g, group ≠ g → s'.gathers g = s.gathers g)
    (hjoined : ∀ g, group ≠ g → s'.joined g = s.joined g)
    (hopened : ∀ g, group ≠ g → s'.opened g = s.opened g) (hnext : s'.nextGroup = s.nextGroup)
    (hgroup : s'.GroupAt group) : s'.Grouped := by
  refine ⟨?_, fun g => ?_⟩
  · have := h.gate
    have := hparts Part.finding
    omega
  by_cases hg : group = g
  · exact hg ▸ hgroup
  · refine (h.group g).beside ?_ ?_ hparts (hgathering g hg) (hjoined g hg) (hopened g hg) hnext.ge
    · rw [hold]
      simpa using hg
    · rcases hnew with hnew | hnew <;> rw [hnew]
      · simpa using hg
      · nofun

theorem Grouped.join (hfound : 0 < s.parts (Part.finds' group))
    (hheld : s.gate = true)
    (hparts : ∀ f, s'.parts f + f (.finds group) = s.parts f + f (.joins group)) (hgate : s'.gate = false)
    (hgathering : s'.gathering = s.gathering)
    (hjoined : s'.joined = Function.update s.joined group (s.joined group + 1))
    (hopened : s'.opened = s.opened) (hnext : s'.nextGroup = s.nextGroup) : s'.Grouped := by
  have hgathers := gathers_congr hgathering
  refine h.within rfl (.inl rfl) hparts ?_ (fun g _ => hgathers g) ?_ (fun g _ => by rw [hopened]) hnext ?_
  · rw [hgate, hheld]
    rfl
  · intro g hg
    rw [hjoined, Function.update_of_ne (Ne.symm hg)]
  · have hcount' : s'.joined group = s.joined group + 1 := by rw [hjoined, Function.update_self]
    have hsame := hgathers group
    have hle := gathering_le_leads s group
    have hmoved := (h.group group).moved hparts
    simp only [Part.finds', Part.joined, Part.following, Part.leads, Part.gathering, Part.unopened,
      if_true] at hmoved
    rw [← hopened] at hmoved
    constructor <;> omega

theorem Grouped.follow (hopen' : s.opened group = true)
    (hparts : ∀ f, s'.parts f + f (.joins group) = s.parts f + f (.follows group)) (hgate : s'.gate = s.gate)
    (hgathering : s'.gathering = s.gathering) (hjoined : s'.joined = s.joined)
    (hopened : s'.opened = s.opened) (hnext : s'.nextGroup = s.nextGroup) : s'.Grouped := by
  have hgathers := gathers_congr hgathering
  refine h.within rfl (.inl rfl) hparts (by rw [hgate]; rfl) (fun g _ => hgathers g)
    (fun g _ => congrFun hjoined g) (fun g _ => by rw [hopened]) hnext ?_
  have hsame := hgathers group
  have hone : (s'.opened group).toNat = 1 := by rw [hopened, hopen']; rfl
  have hmoved := (h.group group).moved hparts
  simp only [Part.finds', Part.joined, Part.following, Part.leads, Part.gathering, Part.unopened,
    if_true] at hmoved
  rw [← hopened, ← hjoined] at hmoved
  constructor <;> omega

theorem Grouped.open (hlead : 0 < s.parts (Part.unopened group))
    (hparts : ∀ f, s'.parts f + f (.gathers group) = s.parts f + f (.runs group)) (hgate : s'.gate = s.gate)
    (hgathering : s'.gathering = s.gathering) (hjoined : s'.joined = s.joined)
    (hopened : s'.opened = Function.update s.opened group true) (hnext : s'.nextGroup = s.nextGroup) :
    s'.Grouped := by
  have hgathers := gathers_congr hgathering
  refine h.within rfl (.inl rfl) hparts (by rw [hgate]; rfl) (fun g _ => hgathers g)
    (fun g _ => congrFun hjoined g) ?_ hnext ?_
  · intro g hg
    rw [hopened, Function.update_of_ne (Ne.symm hg)]
  · have hsame := hgathers group
    have hone : (s'.opened group).toNat = 1 := by rw [hopened, Function.update_self]; rfl
    have hle := unopened_le_leads s group
    have hmoved := (h.group group).moved hparts
    simp only [Part.finds', Part.joined, Part.following, Part.leads, Part.gathering, Part.unopened,
      if_true] at hmoved
    rw [← hjoined] at hmoved
    constructor <;> omega

theorem Grouped.close (hfree : s.gate = false)
    (hruns : 0 < s.parts (Part.gathering group))
    (hparts : ∀ f, s'.parts f + f (.runs group) = s.parts f + f (.closes group)) (hgate : s'.gate = s.gate)
    (hgathering : s'.gathering = none) (hjoined : s'.joined = s.joined)
    (hopened : s'.opened = s.opened) (hnext : s'.nextGroup = s.nextGroup) : s'.Grouped := by
  have hnobody : ∀ g, s'.gathers g = 0 := fun g => by simp [gathers, hgathering]
  have hsome : s.gathering = some group := by
    have hone := (h.group group).gathering
    by_contra hne
    simp only [gathers, if_neg hne] at hone
    omega
  have hgate' := h.gate
  rw [hfree, Bool.toNat_false] at hgate'
  have hfinds := finds_le_finding s group
  refine h.within rfl (.inl rfl) hparts (by rw [hgate]; rfl) ?_ (fun g _ => congrFun hjoined g)
    (fun g _ => by rw [hopened]) hnext ?_
  · intro g hg
    rw [hnobody, gathers, hsome, if_neg (by simpa using hg)]
  · have hnot := hnobody group
    have hone : s.gathers group = 1 := by simp [gathers, hsome]
    have hmoved := (h.group group).moved hparts
    simp only [Part.finds', Part.joined, Part.following, Part.leads, Part.gathering, Part.unopened,
      if_true] at hmoved
    rw [← hopened, ← hjoined] at hmoved
    constructor <;> omega

theorem Grouped.unjoin
    (hparts : ∀ f, s'.parts f + f (.follows group) = s.parts f + f .apart) (hgate : s'.gate = s.gate)
    (hgathering : s'.gathering = s.gathering)
    (hjoined : s'.joined = Function.update s.joined group (s.joined group - 1))
    (hopened : s'.opened = s.opened) (hnext : s'.nextGroup = s.nextGroup) : s'.Grouped := by
  have hgathers := gathers_congr hgathering
  refine h.within rfl (.inr rfl) hparts (by rw [hgate]; rfl) (fun g _ => hgathers g) ?_
    (fun g _ => by rw [hopened]) hnext ?_
  · intro g hg
    rw [hjoined, Function.update_of_ne (Ne.symm hg)]
  · have hcount' : s'.joined group = s.joined group - 1 := by rw [hjoined, Function.update_self]
    have hsame := hgathers group
    have hmoved := (h.group group).moved hparts
    simp only [Part.finds', Part.joined, Part.following, Part.leads, Part.gathering, Part.unopened,
      if_true] at hmoved
    rw [← hopened] at hmoved
    constructor <;> omega

theorem Grouped.finish (hnone : s.joined group = 0)
    (hparts : ∀ f, s'.parts f + f (.closes group) = s.parts f + f .apart) (hgate : s'.gate = s.gate)
    (hgathering : s'.gathering = s.gathering) (hjoined : s'.joined = s.joined)
    (hopened : s'.opened = s.opened) (hnext : s'.nextGroup = s.nextGroup) : s'.Grouped := by
  have hgathers := gathers_congr hgathering
  refine h.within rfl (.inr rfl) hparts (by rw [hgate]; rfl) (fun g _ => hgathers g)
    (fun g _ => congrFun hjoined g) (fun g _ => by rw [hopened]) hnext ?_
  have hsame := hgathers group
  have hmoved := (h.group group).moved hparts
  simp only [Part.finds', Part.joined, Part.following, Part.leads, Part.gathering, Part.unopened,
    if_true] at hmoved
  rw [← hjoined] at hnone
  rw [← hopened, ← hjoined] at hmoved
  constructor <;> omega

end

variable {stage : ClientStage}

theorem Queued.go {b : Barrier} (h : s.Queued) (hclients : b.clients = s.clients)
    (hsub : ∀ waiter ∈ b.waiting, waiter ∈ s.waiting) (hnext : b.nextPlace = s.nextPlace)
    (hstage : ∀ place task, stage ≠ .waiting place task) : (b.go i client stage).Queued := by
  refine ⟨?_, ?_⟩
  · intro waiter hw
    exact hnext ▸ h.places waiter (hsub waiter hw)
  · intro c hc place task hwaits
    rcases mem_or_eq_of_mem_set hc with hc | rfl
    · obtain ⟨hlt, hwant⟩ := h.wants c (hclients ▸ hc) place task hwaits
      exact ⟨hnext ▸ hlt, fun waiter hw => hwant waiter (hsub waiter hw)⟩
    · exact absurd hwaits (hstage place task)

theorem Inv.goes {b : Barrier} (h : s.Inv) (hclients : b.clients = s.clients)
    (hcounted : (b.go i client stage).Counted) (hgrouped : (b.go i client stage).Grouped)
    (hqueued : (b.go i client stage).Queued) (hfits : Fits { client with stage })
    (hfill : FillFits b.started b.finished { client with stage })
    (hkeep : ∀ c, FillFits s.started s.finished c → FillFits b.started b.finished c) :
    (b.go i client stage).Inv := by
  refine ⟨hcounted, hgrouped, hqueued, ?_, ?_⟩
  · exact forall_set (p := Fits) (hclients ▸ h.fits) (fun _ hc => hc) hfits
  · exact forall_set (p := FillFits s.started s.finished) (hclients ▸ h.fills) hkeep hfill

section
variable (h : s.Inv) (hi : s.clients[i]? = some client)
include h hi

theorem Inv.stays {gathering : Option Nat} {gate : Bool} {opened : Nat → Bool} {joined : Nat → Nat}
    {nextGroup : Nat} {old : ClientStage}
    (hstage : client.stage = old) (hplace : stage.place = old.place)
    (hwaits : ∀ place task, stage ≠ .waiting place task)
    (hgrouped : ({ s with gathering, gate, opened, joined, nextGroup }.go i client stage).Grouped)
    (hfits : Fits { client with stage }) (hfill : FillFits s.started s.finished { client with stage }) :
    ({ s with gathering, gate, opened, joined, nextGroup }.go i client stage).Inv := by
  refine h.goes rfl ?_ hgrouped (h.queued.go rfl (fun _ hw => hw) rfl hwaits) hfits hfill (fun _ hc => hc)
  refine h.counted.move (places_go hi stage) ?_ ?_ h.counted.apart ?_ <;> rw [hstage, hplace] <;> rfl

theorem Inv.plain {old : ClientStage}
    (hstage : client.stage = old) (hplace : stage.place = old.place) (hpart : stage.part = old.part)
    (hwaits : ∀ place task, stage ≠ .waiting place task) (hfits : Fits { client with stage })
    (hfill : FillFits s.started s.finished { client with stage }) : (s.go i client stage).Inv := by
  refine h.stays hi hstage hplace hwaits ?_ hfits hfill
  refine h.grouped.same client.stage.part (fun f => ?_) rfl rfl rfl rfl rfl
  have hparts := parts_go hi stage f
  rwa [hpart, ← hstage] at hparts

theorem Inv.ask (hstage : client.stage = .call)
    (hop : client.op = .publishGrouped) (hs : s.ask i client = some s') : s'.Inv := by
  have hfit : Fits client := h.fits client (mem_of_getElem? hi)
  simp only [Fits, hstage] at hfit
  unfold Barrier.ask at hs
  split at hs
  · cases hs
  · rename_i hfree
    have hfree : s.gate = false := by simpa using hfree
    split at hs
    · rename_i group hsome
      cases hs
      have hparts := parts_go hi (.found group)
      rw [hstage] at hparts
      refine h.stays hi hstage rfl nofun ?_ ⟨hop, hfit⟩ trivial
      exact h.grouped.find hfree hsome hparts rfl rfl rfl rfl rfl
    · rename_i hnone
      cases hs
      have hparts := parts_go hi (.enter (.lead s.nextGroup))
      rw [hstage] at hparts
      refine h.stays hi hstage rfl nofun ?_ ⟨hop, hfit⟩ trivial
      exact h.grouped.lead hnone hparts rfl rfl rfl rfl rfl

theorem Inv.enqueue
    (hstage : client.stage = .enter task) :
    ({ s with waiting := s.waiting ++ [⟨s.nextPlace, task.want⟩], nextPlace := s.nextPlace + 1 } : Barrier).go i
      client (.waiting s.nextPlace task) |>.Inv := by
  have hfit : Fits client := h.fits client (mem_of_getElem? hi)
  simp only [Fits, hstage] at hfit
  refine h.goes rfl ?_ ?_ ⟨?_, ?_⟩ hfit trivial (fun _ hc => hc)
  · refine h.counted.move (places_go hi _) ?_ ?_ h.counted.apart ?_ <;> rw [hstage] <;> rfl
  · refine h.grouped.same task.part (fun f => ?_) rfl rfl rfl rfl rfl
    have hparts := parts_go hi (.waiting s.nextPlace task) f
    rw [hstage] at hparts
    exact hparts
  · intro waiter hw
    rcases mem_append.mp hw with hw | hw
    · exact (h.queued.places waiter hw).trans (Nat.lt_succ_self _)
    · rw [mem_singleton.mp hw]
      exact Nat.lt_succ_self _
  · intro c hc place task' hwaits
    rcases mem_or_eq_of_mem_set hc with hc | rfl
    · obtain ⟨hlt, hwant⟩ := h.queued.wants c hc place task' hwaits
      refine ⟨hlt.trans (Nat.lt_succ_self _), fun waiter hw hplace => ?_⟩
      rcases mem_append.mp hw with hw | hw
      · exact hwant waiter hw hplace
      · rw [mem_singleton.mp hw] at hplace
        exact absurd hplace.symm hlt.ne
    · cases hwaits
      refine ⟨Nat.lt_succ_self _, fun waiter hw hplace => ?_⟩
      rcases mem_append.mp hw with hw | hw
      · exact absurd hplace (h.queued.places waiter hw).ne
      · rw [mem_singleton.mp hw]

theorem Inv.goIn {place : Nat}
    (hstage : client.stage = .waiting place task) (hmay : s.mayEnter place = true) :
    (s.goIn i client task).Inv := by
  have hc := mem_of_getElem? hi
  have hfit : Fits client := h.fits client hc
  simp only [Fits, hstage] at hfit
  obtain ⟨hfree, hempty⟩ := h.queued.free hc hstage hmay
  have hsub : ∀ waiter ∈ s.waiting.tail, waiter ∈ s.waiting := fun waiter hw => mem_of_mem_tail hw
  have hquiet : s.places Place.active = 0 := by
    have hexcl := h.counted.publishing
    have := active_le_exclusive s
    rw [hfree, Bool.toNat_false] at hexcl
    omega
  have hplaces := fun stage : ClientStage => places_go hi stage
  have hparts := fun stage : ClientStage => parts_go hi stage
  simp only [hstage] at hplaces hparts
  cases task with
  | reading =>
    refine h.goes rfl ?_ ?_ (h.queued.go rfl hsub rfl nofun) hfit trivial (fun _ hc => hc)
    · exact h.counted.move (hplaces .reading) rfl rfl (fun hp => absurd (hfree.symm.trans hp) Bool.false_ne_true) rfl
    · exact h.grouped.same .apart (hparts .reading) rfl rfl rfl rfl rfl
  | readingAll =>
    refine h.goes rfl ?_ ?_ (h.queued.go rfl hsub rfl nofun) hfit (h.isQuiet hquiet) (fun _ hc => hc)
    · exact h.counted.move (hplaces (.fillingHeld _)) rfl rfl (fun hp => absurd (hfree.symm.trans hp) Bool.false_ne_true) rfl
    · exact h.grouped.same .apart (hparts (.fillingHeld _)) rfl rfl rfl rfl rfl
  | publishing =>
    refine h.goes rfl ?_ ?_ (h.queued.go rfl hsub rfl nofun) hfit trivial (fun _ hc => hc)
    · exact h.counted.move (hplaces (.entered none)) rfl (by rw [hfree]; rfl) (fun _ => hempty rfl) rfl
    · exact h.grouped.same .apart (hparts (.entered none)) rfl rfl rfl rfl rfl
  | lead group =>
    refine h.goes rfl ?_ ?_ (h.queued.go rfl hsub rfl nofun) hfit trivial (fun _ hc => hc)
    · exact h.counted.move (hplaces (.entered (some group))) rfl (by rw [hfree]; rfl) (fun _ => hempty rfl) rfl
    · exact h.grouped.same (.gathers group) (hparts (.entered (some group))) rfl rfl rfl rfl rfl

end

variable {c : Client}

theorem Inv.fill_begun (h : s.Inv) (hactive : 0 < s.places Place.active) (hc : c ∈ s.clients) :
    FillFits s.started s.finished c.disturb := by
  have hfill := h.fills c hc
  have hstarted := h.counted.started
  unfold Client.disturb
  split
  · rename_i clean hstage
    have := h.no_active_of_reads hc (by rw [hstage]; rfl)
    omega
  · rename_i fills quiet clean hstage
    simp only [FillFits, hstage] at hfill
    exact ⟨hfill.1, fun heq => by omega⟩
  · exact hfill

theorem fits_disturb (hc : Fits c) : Fits c.disturb := by
  unfold Client.disturb
  split
  · rename_i clean hstage
    simp only [Fits, hstage] at hc
    exact hc
  · rename_i fills quiet clean hstage
    simp only [Fits, hstage] at hc
    exact hc
  · exact hc

theorem disturb_waits {place : Nat} (h : c.disturb.stage = .waiting place task) :
    c.stage = .waiting place task := by
  unfold Client.disturb at h
  split at h
  · cases h
  · cases h
  · exact h

theorem Inv.beginMoves (h : s.Inv) (hi : s.clients[i]? = some client) (hactive : 0 < s.places Place.active)
    (hplace : client.stage.place = (ClientStage.moving role).place) (hgrouped : (s.beginMoves i client role).Grouped)
    (hfits : Fits { client with stage := .moving role, ran := client.ran + 1 }) :
    (s.beginMoves i client role).Inv := by
  have hin : ∀ c ∈ (s.beginMoves i client role).clients, ∃ d, c = d.disturb ∧
      (d ∈ s.clients ∨ d = { client with stage := .moving role, ran := client.ran + 1 }) := by
    intro c hc
    obtain ⟨d, hd, rfl⟩ := mem_map.mp hc
    exact ⟨d, rfl, mem_or_eq_of_mem_set hd⟩
  have hplaces := places_beginMoves hi role
  rw [hplace] at hplaces
  refine ⟨h.counted.move hplaces rfl rfl h.counted.apart rfl, hgrouped, ⟨h.queued.places, ?_⟩, ?_, ?_⟩
  · intro c hc place task hwaits
    obtain ⟨d, rfl, hd | rfl⟩ := hin c hc
    · exact h.queued.wants d hd place task (disturb_waits hwaits)
    · cases disturb_waits hwaits
  · intro c hc
    obtain ⟨d, rfl, hd | rfl⟩ := hin c hc
    · exact fits_disturb (h.fits d hd)
    · exact fits_disturb hfits
  · intro c hc
    obtain ⟨d, rfl, hd | rfl⟩ := hin c hc
    · exact h.fill_begun hactive hd
    · exact trivial

theorem Inv.endMoves (h : s.Inv) (hi : s.clients[i]? = some client)
    (hstage : client.stage = .moved role) (hs : s.endMoves i client role = some s') : s'.Inv := by
  have hc := mem_of_getElem? hi
  have hfit : Fits client := h.fits client hc
  have hparts := fun stage : ClientStage => parts_go hi stage
  simp only [Fits, hstage] at hfit hparts
  cases role with
  | alone =>
    cases hs
    exact h.plain hi hstage rfl rfl nofun ⟨.inl hfit.1, hfit.2⟩ trivial
  | leader group =>
    simp only [Barrier.endMoves] at hs
    split at hs
    · cases hs
    · rename_i hfree
      cases hs
      have hruns := le_total (f := fun client : Client => Part.gathering group client.stage.part) hc
      simp only [hstage, ClientStage.part, Part.gathering, if_true] at hruns
      refine h.stays hi hstage rfl nofun ?_ hfit trivial
      exact h.grouped.close (by simpa using hfree) hruns (hparts (.closing group)) rfl rfl rfl rfl rfl
  | joiner group =>
    cases hs
    refine h.stays hi hstage rfl nofun ?_ (.inr ⟨.inr hfit.1, hfit.2⟩) trivial
    exact h.grouped.unjoin (hparts (.done none)) rfl rfl rfl rfl rfl

theorem Inv.holder (h : s.Inv) (hi : s.clients[i]? = some client)
    (hstage : client.stage = .moving role) : ∃ k c, s.clients[k]? = some c ∧ 0 < c.stage.place.exclusive ∧
      (role = .alone → k = i) ∧ ∀ g, role.group = some g → 0 < c.stage.part.leads g := by
  cases role with
  | alone => exact ⟨i, client, hi, by rw [hstage]; decide, fun _ => rfl, nofun⟩
  | leader group =>
    refine ⟨i, client, hi, by rw [hstage]; exact Nat.one_pos, nofun, ?_⟩
    rintro g ⟨⟩
    rw [hstage]
    simp [ClientStage.part, Part.leads]
  | joiner group =>
    have hfollow := le_total (f := fun client : Client => Part.following group client.stage.part)
      (mem_of_getElem? hi)
    simp only [hstage, ClientStage.part, Part.following, if_true] at hfollow
    have hgroup := h.grouped.group group
    have hopen := hgroup.opened (hgroup.following hfollow)
    have hone := hgroup.followed (hfollow.trans (following_le_joined s group))
    obtain ⟨k, c, hk, hleads⟩ := exists_of_total_pos (hone.symm ▸ Nat.one_pos : 0 < s.parts (Part.leads group))
    have hunopened := le_total (f := fun client : Client => Part.unopened group client.stage.part)
      (mem_of_getElem? hk)
    have hle := c.stage.leads_le group
    refine ⟨k, c, hk, ?_, nofun, ?_⟩
    · have hzero : c.stage.part.unopened group = 0 := Nat.le_zero.mp (hunopened.trans_eq hopen)
      have hactive : c.stage.place.active ≤ c.stage.place.exclusive := by
        cases c.stage.place <;> simp [Place.active, Place.exclusive]
      omega
    · rintro g ⟨⟩
      exact hleads

theorem Inv.leaveShared (h : s.Inv) (hi : s.clients[i]? = some client) {clean : Option Bool}
    (hstage : client.stage = stage) (hplace : stage.place = .reads) (hpart : stage.part = .apart)
    (hfits : Fits { client with stage := .done clean })
    (hfill : FillFits s.started s.finished { client with stage := .done clean }) :
    ({ s with readers := s.readers - 1 }.go i client (.done clean)).Inv := by
  have hplaces := places_go hi (.done clean)
  have hparts := parts_go hi (.done clean)
  rw [hstage, hplace] at hplaces
  rw [hstage, hpart] at hparts
  have hin := le_total (f := fun client : Client => Place.shared client.stage.place) (mem_of_getElem? hi)
  simp only [hstage, hplace, Place.shared] at hin
  have hpos : 0 < s.readers := h.counted.readers ▸ hin
  refine h.goes rfl ?_ ?_ (h.queued.go rfl (fun _ hw => hw) rfl nofun) hfits hfill (fun _ hc => hc)
  · refine h.counted.move hplaces ?_ rfl (fun hp => ?_) rfl
    · show s.readers - 1 + 1 = s.readers + 0
      omega
    · have := h.counted.apart hp
      omega
  · exact h.grouped.same .apart hparts rfl rfl rfl rfl rfl

theorem fillFits_started {started finished : Nat} (hle : finished ≤ started)
    (h : FillFits started finished c) : FillFits (started + 1) finished c := by
  unfold FillFits at h ⊢
  split at h
  · exact ⟨h.1, fun heq => by omega⟩
  · exact ⟨h.1, fun heq => by omega⟩
  · exact h
  · exact h
  · exact h
  · trivial

theorem fillFits_finished {started finished : Nat} (h : FillFits started finished c) :
    FillFits started (finished + 1) c := by
  unfold FillFits at h ⊢
  split at h
  · exact ⟨h.1.trans (Nat.le_succ _), h.2⟩
  · exact ⟨h.1.trans (Nat.le_succ _), h.2⟩
  · exact h
  · exact h
  · exact h
  · trivial

theorem Inv.advance (h : s.Inv) (hi : s.clients[i]? = some client) (hs : s.advance i client = some s') :
    s'.Inv := by
  have hc := mem_of_getElem? hi
  have hfit : Fits client := h.fits client hc
  have hfill := h.fills client hc
  have hplaces := fun stage : ClientStage => places_go hi stage
  have hparts := fun stage : ClientStage => parts_go hi stage
  have hactive := le_total (f := fun client : Client => Place.active client.stage.place) hc
  have hstarted := h.counted.started
  obtain ⟨op, stage, ran⟩ := client
  cases stage with
  | call =>
    cases op with
    | reading =>
      cases hs
      exact h.plain hi rfl rfl rfl nofun ⟨rfl, hfit⟩ trivial
    | readingAll =>
      cases hs
      exact h.plain hi rfl rfl rfl nofun ⟨rfl, hfit⟩ trivial
    | publishing =>
      cases hs
      exact h.plain hi rfl rfl rfl nofun ⟨rfl, hfit⟩ trivial
    | publishGrouped => exact h.ask hi rfl rfl hs
  | enter task =>
    cases hs
    exact h.enqueue hi rfl
  | waiting place task =>
    simp only [Barrier.advance] at hs
    split at hs
    · cases hs
      exact h.goIn hi rfl ‹_›
    · cases hs
  | reading =>
    cases hs
    exact h.leaveShared hi rfl rfl rfl (.inl hfit) trivial
  | fillingHeld clean =>
    cases hs
    exact h.plain hi rfl rfl rfl nofun hfit hfill
  | filled clean =>
    cases hs
    exact h.leaveShared hi rfl rfl rfl hfit hfill
  | entered group =>
    cases hs
    have hle : s.finished ≤ s.started := by omega
    refine h.goes rfl ?_ ?_ (h.queued.go rfl (fun _ hw => hw) rfl nofun) ?_ trivial
      (fun _ hc => fillFits_started hle hc)
    · refine h.counted.move (hplaces (.holding group)) rfl rfl h.counted.apart ?_
      show s.started + 1 + s.finished + 0 = s.started + s.finished + 1
      omega
    · cases group with
      | none => exact h.grouped.same .apart (hparts (.holding none)) rfl rfl rfl rfl rfl
      | some g => exact h.grouped.same (.gathers g) (hparts (.holding (some g))) rfl rfl rfl rfl rfl
    · cases group with
      | none => exact hfit
      | some g => exact hfit
  | holding group =>
    cases group with
    | none =>
      cases hs
      refine h.beginMoves hi hactive rfl ?_ ⟨hfit.1, congrArg (· + 1) hfit.2⟩
      exact h.grouped.same .apart (parts_beginMoves hi .alone) rfl rfl rfl rfl rfl
    | some group =>
      cases hs
      have hlead := le_total (f := fun client : Client => Part.unopened group client.stage.part) hc
      simp only [ClientStage.part, Part.unopened, if_true] at hlead
      refine h.stays hi rfl rfl nofun ?_ hfit trivial
      exact h.grouped.open hlead (hparts (.opened group)) rfl rfl rfl rfl rfl
  | opened group =>
    cases hs
    refine h.beginMoves hi hactive rfl ?_ ⟨hfit.1, congrArg (· + 1) hfit.2⟩
    exact h.grouped.same (.runs group) (parts_beginMoves hi (.leader group)) rfl rfl rfl rfl rfl
  | moving role =>
    cases hs
    cases role <;> exact h.plain hi rfl rfl rfl nofun hfit trivial
  | moved role => exact h.endMoves hi rfl hs
  | closing group =>
    simp only [Barrier.advance] at hs
    split at hs
    · cases hs
    · rename_i hnone
      cases hs
      refine h.stays hi rfl rfl nofun ?_ ⟨.inr hfit.1, hfit.2⟩ trivial
      exact h.grouped.finish (by omega) (hparts .finishing) rfl rfl rfl rfl rfl
  | finishing =>
    cases hs
    refine h.goes rfl ?_ ?_ (h.queued.go rfl (fun _ hw => hw) rfl nofun) hfit trivial
      (fun _ hc => fillFits_finished hc)
    · refine h.counted.move (hplaces .leaving) rfl rfl h.counted.apart ?_
      show s.started + s.finished + 1 = s.started + (s.finished + 1) + 0
      omega
    · exact h.grouped.same .apart (hparts .leaving) rfl rfl rfl rfl rfl
  | leaving =>
    cases hs
    have hinside := le_total (f := fun client : Client => Place.exclusive client.stage.place) hc
    have hone : s.isPublishing = true := by
      have hexcl := h.counted.publishing
      cases hp : s.isPublishing with
      | true => rfl
      | false =>
        rw [hp, Bool.toNat_false] at hexcl
        exact absurd hinside (by show ¬ 1 ≤ s.places Place.exclusive; omega)
    refine h.goes rfl ?_ ?_ (h.queued.go rfl (fun _ hw => hw) rfl nofun) (.inr hfit) trivial (fun _ hc => hc)
    · exact h.counted.move (hplaces (.done none)) rfl (by rw [hone]; rfl) nofun rfl
    · exact h.grouped.same .apart (hparts (.done none)) rfl rfl rfl rfl rfl
  | found group =>
    cases hs
    have hfound := le_total (f := fun client : Client => Part.finds' group client.stage.part) hc
    simp only [ClientStage.part, Part.finds', if_true] at hfound
    have hheld : s.gate = true := by
      have hgate := h.grouped.gate
      have := finds_le_finding s group
      cases hg : s.gate with
      | true => rfl
      | false =>
        rw [hg, Bool.toNat_false] at hgate
        exact absurd hfound (by show ¬ 1 ≤ s.parts (Part.finds' group); omega)
    refine h.stays hi rfl rfl nofun ?_ hfit trivial
    exact h.grouped.join hfound hheld (hparts (.joined group)) rfl rfl rfl rfl rfl
  | joined group =>
    simp only [Barrier.advance] at hs
    split at hs
    · rename_i hopen
      cases hs
      have hjoined := le_total (f := fun client : Client => Part.joined group client.stage.part) hc
      simp only [ClientStage.part, Part.joined, if_true] at hjoined
      have hactive := h.grouped.active_of_following (by rw [hopen]; rfl) hjoined
      refine h.beginMoves hi hactive rfl ?_ ⟨hfit.1, congrArg (· + 1) hfit.2⟩
      exact h.grouped.follow hopen (parts_beginMoves hi (.joiner group)) rfl rfl rfl rfl rfl
    · cases hs
  | probe fills =>
    cases fills with
    | zero =>
      cases hs
      exact h.plain hi rfl rfl rfl nofun hfit trivial
    | succ fills =>
      cases hs
      exact h.plain hi rfl rfl rfl nofun hfit trivial
  | probed fills started =>
    simp only [Barrier.advance] at hs
    split at hs
    · rename_i heq
      cases hs
      refine h.plain hi rfl rfl rfl nofun hfit ⟨heq.le, fun hsame => ?_⟩
      exact h.isQuiet (by omega)
    · cases hs
      exact h.plain hi rfl rfl rfl nofun hfit trivial
  | filling fills quiet clean =>
    cases hs
    exact h.plain hi rfl rfl rfl nofun hfit hfill
  | checking fills quiet clean =>
    simp only [Barrier.advance] at hs
    split at hs
    · rename_i heq
      cases hs
      exact h.plain hi rfl rfl rfl nofun hfit (hfill.2 heq)
    · cases hs
      exact h.plain hi rfl rfl rfl nofun hfit trivial
  | done clean => cases hs

theorem Inv.call (h : s.Inv) (op : BarrierOp) :
    ({ s with clients := s.clients ++ [⟨op, .call, 0⟩] } : Barrier).Inv := by
  have hin : ∀ c ∈ s.clients ++ [(⟨op, .call, 0⟩ : Client)], c ∈ s.clients ∨ c = ⟨op, .call, 0⟩ := by
    intro c hc
    simpa using hc
  have hplaces : ∀ f : Place → Nat,
      ({ s with clients := s.clients ++ [⟨op, .call, 0⟩] } : Barrier).places f = s.places f + f .outside := by
    intro f
    exact total_append _ _ _
  have hparts : ∀ f : Part → Nat,
      ({ s with clients := s.clients ++ [⟨op, .call, 0⟩] } : Barrier).parts f = s.parts f + f .apart := by
    intro f
    exact total_append _ _ _
  refine ⟨?_, ?_, ⟨h.queued.places, ?_⟩, ?_, ?_⟩
  · refine ⟨?_, ?_, h.counted.apart, ?_⟩
    · rw [hplaces]
      exact h.counted.readers
    · rw [hplaces]
      exact h.counted.publishing
    · rw [hplaces]
      exact h.counted.started
  · refine ⟨?_, fun g => ⟨?_, ?_, ?_, ?_, ?_, ?_, ?_, ?_⟩⟩
    · rw [hparts]
      exact h.grouped.gate
    · rw [hparts]
      exact (h.grouped.group g).found
    · rw [hparts]
      exact (h.grouped.group g).joined
    · rw [hparts]
      exact (h.grouped.group g).leads
    · rw [hparts, hparts]
      exact (h.grouped.group g).followed
    · rw [hparts]
      exact (h.grouped.group g).gathering
    · rw [hparts]
      exact (h.grouped.group g).opened
    · rw [hparts]
      exact (h.grouped.group g).following
    · rw [hparts]
      exact (h.grouped.group g).fresh
  · intro c hc place task hwaits
    rcases hin c hc with hc | rfl
    · exact h.queued.wants c hc place task hwaits
    · cases hwaits
  · intro c hc
    rcases hin c hc with hc | rfl
    · exact h.fits c hc
    · rfl
  · intro c hc
    rcases hin c hc with hc | rfl
    · exact h.fills c hc
    · trivial

theorem Inv.step (h : s.Inv) {a : BarrierStep} (hs : s.step a = some s') : s'.Inv := by
  cases a with
  | call op =>
    cases hs
    exact h.call op
  | client i =>
    obtain ⟨client, hi, hs⟩ := Option.bind_eq_some_iff.mp hs
    exact h.advance hi hs

theorem inv_new : new.Inv := by
  refine ⟨⟨rfl, rfl, fun _ => rfl, rfl⟩, ⟨rfl, fun g => ?_⟩, ⟨by simp [new], by simp [new]⟩, by simp [new],
    by simp [new]⟩
  refine ⟨nofun, rfl, Nat.zero_le _, nofun, rfl, nofun, nofun, fun _ => ⟨rfl, rfl, rfl⟩⟩

theorem inv_run {steps : List BarrierStep} (hrun : Runs.run step new steps = some s) : s.Inv :=
  Runs.holds_run Inv (fun _ _ _ h hs => h.step hs) inv_new hrun

theorem leads_inj {part : Part} {g g' : Nat} (h : 0 < part.leads g) (h' : 0 < part.leads g') : g = g' := by
  have hpick : ∀ k : Nat, (0 < if k = g then 1 else 0) → (0 < if k = g' then 1 else 0) → g = g' := by
    intro k hk hk'
    split at hk
    · split at hk'
      · omega
      · cases hk'
    · cases hk
  cases part with
  | gathers k => exact hpick k h h'
  | runs k => exact hpick k h h'
  | closes k => exact hpick k h h'
  | apart => cases h
  | finds k => cases h
  | joins k => cases h
  | follows k => cases h

theorem Inv.one_leader (h : s.Inv) {i j : Nat} {d : Client} {role' : Role} (hi : s.clients[i]? = some c)
    (hj : s.clients[j]? = some d) (hne : i ≠ j) (hc : c.stage = .moving role) (hd : d.stage = .moving role') :
    ∃ g, role.group = some g ∧ role'.group = some g := by
  obtain ⟨k, x, hk, hx, hxalone, hxleads⟩ := h.holder hi hc
  obtain ⟨l, y, hl, hy, hyalone, hyleads⟩ := h.holder hj hd
  have hsame : k = l := by
    by_contra hkl
    have htwo := add_le_total (f := fun client : Client => Place.exclusive client.stage.place) hk hl hkl
    have hone : s.places Place.exclusive ≤ 1 := h.counted.publishing ▸ Bool.toNat_le _
    have : x.stage.place.exclusive + y.stage.place.exclusive ≤ 1 := htwo.trans hone
    omega
  subst hsame
  obtain rfl := Option.some.inj (hk.symm.trans hl)
  -- a batch that moves alone leads no group and is nobody else's holder
  have hno : ∀ {i : Nat} {c : Client} {g : Nat}, s.clients[i]? = some c → c.stage = .moving .alone → k = i →
      ¬ 0 < x.stage.part.leads g := by
    rintro i c g hi hc rfl
    obtain rfl := Option.some.inj (hk.symm.trans hi)
    rw [hc]
    simp [ClientStage.part, Part.leads]
  cases hg : role.group with
  | none =>
    have halone : role = .alone := by cases role <;> simp_all [Role.group]
    subst halone
    cases hg' : role'.group with
    | none =>
      have halone' : role' = .alone := by cases role' <;> simp_all [Role.group]
      exact absurd ((hxalone rfl).symm.trans (hyalone halone')) hne
    | some g' => exact absurd (hyleads g' hg') (hno hi hc (hxalone rfl))
  | some g =>
    cases hg' : role'.group with
    | none =>
      have halone' : role' = .alone := by cases role' <;> simp_all [Role.group]
      subst halone'
      exact absurd (hxleads g hg) (hno hj hd (hyalone rfl))
    | some g' => exact ⟨g, rfl, by rw [leads_inj (hxleads g hg) (hyleads g' hg')]⟩

/-- Over every run: no holder of `reading` is inside while a batch's moves run, moves that run at once
run under one leader, a batch handed to `publishGrouped` has its moves run once before its call returns,
and what `readingAll` returns was filled with no batch's moves beside it. -/
theorem spanning_reads_whole (steps : List BarrierStep) (s : Barrier) (hrun : Runs.run step new steps = some s) :
    (∀ c ∈ s.clients, c.isMoving = true → ∀ d ∈ s.clients, d.isReading = false) ∧
    (∀ (i j : Nat) (c d : Client) (role role' : Role), s.clients[i]? = some c → s.clients[j]? = some d → i ≠ j →
      c.stage = .moving role → d.stage = .moving role' → ∃ g, role.group = some g ∧ role'.group = some g) ∧
    (∀ c ∈ s.clients, c.op = .publishGrouped →
      c.ran ≤ 1 ∧ ∀ clean, c.stage = .done clean → c.ran = 1) ∧
    (∀ c ∈ s.clients, c.op = .readingAll → ∀ clean, c.stage = .done clean → clean = some true) := by
  have h := inv_run hrun
  refine ⟨?_, ?_, ?_, ?_⟩
  · intro c hc hmoving d hd
    unfold Client.isMoving at hmoving
    split at hmoving
    · rename_i role hstage
      have hactive := h.active_of_moving hc hstage
      by_contra hreads
      have hplace : d.stage.place = .reads := by
        unfold Client.isReading at hreads
        split at hreads <;> simp_all [ClientStage.place]
      have := h.no_active_of_reads hd hplace
      omega
    · cases hmoving
  · intro i j c d role role' hi hj hne hc hd
    exact h.one_leader hi hj hne hc hd
  · intro c hc hop
    have hfit : Fits c := h.fits c hc
    unfold Fits at hfit
    refine ⟨?_, fun clean hdone => ?_⟩
    · split at hfit <;> omega
    · cases clean with
      | none =>
        simp only [hdone, hop] at hfit
        simpa using hfit
      | some clean =>
        simp only [hdone, hop] at hfit
        cases hfit.1
  · intro c hc hop clean hdone
    have hfit : Fits c := h.fits c hc
    have hfill := h.fills c hc
    cases clean with
    | none =>
      simp only [Fits, hdone, hop] at hfit
      simp at hfit
    | some clean =>
      simp only [FillFits, hdone] at hfill
      rw [hfill]

def groupOfTwo : List BarrierStep :=
  [.call .publishGrouped, .call .publishGrouped, .call .readingAll, .client 0, .client 1, .client 1,
    .client 0, .client 0, .client 0, .client 0, .client 0, .client 1, .client 2, .client 2]

theorem spanning_reads_group : ∃ s, Runs.run step new groupOfTwo = some s ∧
    s.clients.map Client.isMoving = [true, true, false] ∧
    ∀ c ∈ s.clients, c.isMoving = true → ∀ d ∈ s.clients, d.isReading = false :=
  ⟨_, rfl, by decide, (spanning_reads_whole groupOfTwo _ rfl).1⟩

end Barrier

end Reel
