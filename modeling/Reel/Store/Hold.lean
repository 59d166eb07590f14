import Reel.Library.Runs
import Reel.Library.Threads

/-!
The read cache: shards behind locks of their own and the byte count they share. What a call does inside a
lock and each update of the count are separate steps, so any number of calls interleave between them.
-/

set_option autoImplicit false

namespace Reel
open Runs Threads List

namespace Hold

structure Slot where
  key : UInt64
  weight : Nat
  deriving DecidableEq, Repr

/-- Where the call inside a shard's lock stands. -/
inductive Lock where
  | free
  | inserting (key : UInt64) (weight : Nat)
  | evicted (key : UInt64) (weight freed : Nat)
  | put (weight : Nat)
  | freed (freed : Nat) (forgets : Option UInt32)
  deriving DecidableEq, Repr

def Lock.owes : Lock → Nat
  | .evicted _ _ bytes | .freed bytes _ => bytes
  | _ => 0

structure Shard where
  slots : List Slot
  lock : Lock
  deriving DecidableEq, Repr

def weigh (slots : List Slot) : Nat := total Slot.weight slots

/-- What the shared count has for a shard: its entries, less the one it has put and not counted yet, and
what it has given up and not yet taken away. -/
def Shard.counted : Shard → Nat
  | ⟨slots, .put weight⟩ => weigh slots - weight
  | ⟨slots, lock⟩ => weigh slots + lock.owes

def mix (key : UInt64) : UInt64 :=
  let mixed := key * 0x9e3779b97f4a7c15
  mixed ^^^ mixed >>> 32

def segmentOf (key : UInt64) : UInt32 := (key >>> 32).toUInt32

def shardsFor (budget typical : Nat) : Nat :=
  ([16, 8, 4, 2].find? fun shards => max typical 1 * 8 ≤ budget / shards).getD 1

end Hold

/-- `forgets` has each running `forget` between two shards and `clears` each running `clear`, by the
shard it comes to next. -/
structure Hold where
  budget : Nat
  bytes : Nat
  shards : List Hold.Shard
  forgets : List (UInt32 × Nat)
  clears : List Nat

/-- `room` tests the budget and then puts or evicts; `victim` is the entry the hand stops at. `count` is
the update of the shared count that a lock's holder owes. -/
inductive HoldStep where
  | insert (key : UInt64) (weight : Nat)
  | room (shard : Nat) (victim : Hold.Slot)
  | count (shard : Nat)
  | take (key : UInt64)
  | forget (segment : UInt32)
  | forgetShard (call : Nat)
  | clear
  | clearShard (call : Nat)

namespace Hold

def new (budget typical : Nat) : Hold :=
  ⟨budget, 0, replicate (shardsFor budget typical) ⟨[], .free⟩, [], []⟩

def shardOf (s : Hold) (key : UInt64) : Nat := (mix key >>> 32).toNat % s.shards.length

def set (s : Hold) (i : Nat) (slots : List Slot) (lock : Lock) : Hold :=
  { s with shards := s.shards.set i ⟨slots, lock⟩ }

def room (s : Hold) (i : Nat) (victim : Slot) : Option Hold :=
  match s.shards[i]? with
  | some ⟨slots, .inserting key weight⟩ =>
    if (s.bytes + weight) % 2 ^ 64 ≤ s.budget then some (s.set i (slots ++ [⟨key, weight⟩]) (.put weight))
    else if victim ∈ slots then some (s.set i (slots.erase victim) (.evicted key weight victim.weight))
    -- Nothing is left to evict, so the entry is turned away.
    else if slots = [] then some (s.set i slots .free)
    else none
  | _ => none

def count (s : Hold) (i : Nat) : Option Hold :=
  match s.shards[i]? with
  | some ⟨slots, .put weight⟩ => some { s.set i slots .free with bytes := (s.bytes + weight) % 2 ^ 64 }
  | some ⟨slots, .evicted key weight freed⟩ =>
    some { s.set i slots (.inserting key weight) with bytes := (s.bytes + 2 ^ 64 - freed) % 2 ^ 64 }
  | some ⟨slots, .freed freed forgets⟩ =>
    some { s.set i slots .free with
      bytes := (s.bytes + 2 ^ 64 - freed) % 2 ^ 64
      -- A `forget` goes on to the next shard; a `take` returns.
      forgets := (forgets.map (·, i + 1)).toList ++ s.forgets }
  | _ => none

def take (s : Hold) (key : UInt64) : Option Hold :=
  match s.shards[s.shardOf key]? with
  | some ⟨slots, .free⟩ =>
    match slots.find? (·.key = key) with
    | some slot => some (s.set (s.shardOf key) (slots.erase slot) (.freed slot.weight none))
    | none => some s
  | _ => none

def insert (s : Hold) (key : UInt64) (weight : Nat) : Option Hold :=
  if s.budget < weight then some s
  else match s.shards[s.shardOf key]? with
    | some ⟨slots, .free⟩ =>
      if slots.any (·.key = key) then some s else some (s.set (s.shardOf key) slots (.inserting key weight))
    | _ => none

def forgetShard (s : Hold) (call : Nat) (segment : UInt32) (i : Nat) : Option Hold :=
  match s.shards[i]? with
  | none => some { s with forgets := s.forgets.eraseIdx call }
  | some ⟨slots, .free⟩ =>
    let going := slots.filter (segmentOf ·.key = segment)
    some { s.set i (slots.filter (!segmentOf ·.key = segment)) (.freed (weigh going) (some segment)) with
      forgets := s.forgets.eraseIdx call }
  | _ => none

def clearShard (s : Hold) (call i : Nat) : Option Hold :=
  match s.shards[i]? with
  | none => some { s with bytes := 0, clears := s.clears.eraseIdx call }
  | some ⟨_, .free⟩ => some { s.set i [] .free with clears := s.clears.set call (i + 1) }
  | _ => none

def step (s : Hold) : HoldStep → Option Hold
  | .insert key weight => s.insert key weight
  | .room i victim => s.room i victim
  | .count i => s.count i
  | .take key => s.take key
  | .forget segment => some { s with forgets := (segment, 0) :: s.forgets }
  | .forgetShard call => s.forgets[call]?.bind fun next => s.forgetShard call next.1 next.2
  | .clear => some { s with clears := 0 :: s.clears }
  | .clearShard call => s.clears[call]?.bind (s.clearShard call)

def held (s : Hold) : Nat := total (fun shard => weigh shard.slots) s.shards

def isIdle (s : Hold) : Bool :=
  s.forgets.isEmpty && s.clears.isEmpty && s.shards.all (·.lock = .free)

/-- Nothing the shards hold is counted when the count is zeroed, and no sum of weights outgrows the
word. -/
def isClean (s : Hold) : HoldStep → Bool
  | .count i => s.shards[i]?.all fun shard => match shard.lock with
    | .put weight => s.bytes + weight < 2 ^ 64
    | _ => true
  | .clearShard call => s.clears[call]?.all fun i => i < s.shards.length || s.shards.all (·.counted = 0)
  | _ => true

def Shard.Fits (shard : Shard) : Prop := ∀ weight, shard.lock = .put weight → weight ≤ weigh shard.slots

structure Inv (s : Hold) : Prop where
  word : s.bytes < 2 ^ 64
  counted : total Shard.counted s.shards ≤ s.bytes
  exact : s.clears = [] → s.bytes = total Shard.counted s.shards
  fits : ∀ shard ∈ s.shards, shard.Fits

variable {s s' : Hold} {i : Nat} {old next : Shard} {slots : List Slot}

theorem Shard.owes_le (shard : Shard) : shard.lock.owes ≤ shard.counted := by
  obtain ⟨slots, lock⟩ := shard
  cases lock with
  | put weight => exact Nat.zero_le _
  | _ => exact Nat.le_add_left _ _

theorem weigh_erase {slot : Slot} (h : slot ∈ slots) :
    weigh (slots.erase slot) + slot.weight = weigh slots := by
  have hperm := total_perm (f := Slot.weight) (perm_cons_erase h)
  simp only [total, map_cons, sum_cons] at hperm
  unfold weigh total
  omega

theorem weigh_filter (slots : List Slot) (p : Slot → Bool) :
    weigh (slots.filter (!p ·)) + weigh (slots.filter p) = weigh slots := by
  rw [Nat.add_comm, weigh, weigh, ← total_append]
  exact total_perm (filter_append_perm p slots)

theorem Inv.moved (h : s.Inv) (hi : s.shards[i]? = some old) {bytes : Nat} {forgets : List (UInt32 × Nat)}
    (hword : bytes < 2 ^ 64) (hfits : next.Fits) (hsame : bytes + old.counted = s.bytes + next.counted) :
    Inv { s with bytes, shards := s.shards.set i next, forgets } := by
  have htotal := total_set (f := Shard.counted) hi next
  have hcounted := h.counted
  refine ⟨hword, ?_, fun hnone => ?_, forall_set h.fits (fun _ hs => hs) hfits⟩
  · show total Shard.counted (s.shards.set i next) ≤ bytes
    omega
  · have hexact := h.exact hnone
    show bytes = total Shard.counted (s.shards.set i next)
    omega

theorem Inv.insert (h : s.Inv) {key : UInt64} {weight : Nat} (hs : s.insert key weight = some s') :
    s'.Inv := by
  unfold Hold.insert at hs
  split at hs
  · cases hs
    exact h
  · split at hs
    · rename_i hi
      split at hs
      · cases hs
        exact h
      · cases hs
        exact h.moved hi h.word (by simp [Shard.Fits]) rfl
    · cases hs

theorem Inv.room (h : s.Inv) {victim : Slot} (hs : s.room i victim = some s') : s'.Inv := by
  unfold Hold.room at hs
  split at hs
  · rename_i slots key weight hi
    have hmore : weigh (slots ++ [⟨key, weight⟩]) = weigh slots + weight := by simp [weigh, total]
    split_ifs at hs with hroom hin hnone
    · cases hs
      refine h.moved hi h.word ?_ ?_
      · intro more hput
        cases hput
        exact hmore ▸ Nat.le_add_left _ _
      · simp [Shard.counted, Lock.owes, hmore]
    · cases hs
      exact h.moved hi h.word (by simp [Shard.Fits]) (by simp [Shard.counted, Lock.owes, weigh_erase hin])
    · cases hs
      exact h.moved hi h.word (by simp [Shard.Fits]) rfl
  · cases hs

theorem Inv.count (h : s.Inv) (hclean : s.isClean (.count i)) (hs : s.count i = some s') : s'.Inv := by
  have hword := h.word
  have hcounted := h.counted
  unfold Hold.count at hs
  split at hs
  · rename_i slots weight hi
    cases hs
    have hfits := h.fits _ (mem_of_getElem? hi) weight rfl
    simp only [isClean, hi, Option.all_some] at hclean
    refine h.moved hi (Nat.mod_lt _ (by norm_num)) (by simp [Shard.Fits]) ?_
    rw [Nat.mod_eq_of_lt (of_decide_eq_true hclean)]
    simp only [Shard.counted, Lock.owes] at hfits ⊢
    omega
  · rename_i slots key weight freed hi
    cases hs
    have hle := le_total (f := Shard.counted) (mem_of_getElem? hi)
    refine h.moved hi (Nat.mod_lt _ (by norm_num)) (by simp [Shard.Fits]) ?_
    simp only [Shard.counted, Lock.owes] at hle ⊢
    omega
  · rename_i slots freed forgets hi
    cases hs
    have hle := le_total (f := Shard.counted) (mem_of_getElem? hi)
    refine h.moved hi (Nat.mod_lt _ (by norm_num)) (by simp [Shard.Fits]) ?_
    simp only [Shard.counted, Lock.owes] at hle ⊢
    omega
  · cases hs

theorem Inv.take (h : s.Inv) {key : UInt64} (hs : s.take key = some s') : s'.Inv := by
  unfold Hold.take at hs
  split at hs
  · rename_i hi
    split at hs
    · rename_i hfind
      cases hs
      have herase := weigh_erase (mem_of_find?_eq_some hfind)
      exact h.moved hi h.word (by simp [Shard.Fits]) (by simp [Shard.counted, Lock.owes, herase])
    · cases hs
      exact h
  · cases hs

theorem Inv.forgetShard (h : s.Inv) {call : Nat} {segment : UInt32}
    (hs : s.forgetShard call segment i = some s') : s'.Inv := by
  unfold Hold.forgetShard at hs
  split at hs
  · cases hs
    exact ⟨h.word, h.counted, h.exact, h.fits⟩
  · rename_i slots hi
    cases hs
    have hsplit := weigh_filter slots (segmentOf ·.key = segment)
    exact h.moved hi h.word (by simp [Shard.Fits]) (congrArg (s.bytes + ·) hsplit.symm)
  · cases hs

theorem Inv.clearShard (h : s.Inv) {call : Nat} (hcall : s.clears[call]? = some i)
    (hclean : s.isClean (.clearShard call)) (hs : s.clearShard call i = some s') : s'.Inv := by
  unfold Hold.clearShard at hs
  split at hs
  · rename_i hi
    cases hs
    have hzero : total Shard.counted s.shards = 0 := by
      refine sum_eq_zero fun n hn => ?_
      obtain ⟨shard, hin, rfl⟩ := mem_map.mp hn
      simp only [isClean, hcall, Option.all_some, Nat.not_lt.mpr (List.getElem?_eq_none_iff.mp hi),
        decide_false, Bool.false_or, all_eq_true, decide_eq_true_eq] at hclean
      exact hclean shard hin
    exact ⟨by norm_num, hzero.le, fun _ => hzero.symm, h.fits⟩
  · rename_i slots hi
    cases hs
    have htotal := total_set (f := Shard.counted) hi ⟨[], .free⟩
    have hcounted := h.counted
    refine ⟨h.word, ?_, fun hnone => ?_, forall_set h.fits (fun _ hs => hs) (by simp [Shard.Fits])⟩
    · show total Shard.counted (s.shards.set i ⟨[], .free⟩) ≤ s.bytes
      simp only [Shard.counted, Lock.owes, weigh, total_nil] at htotal
      omega
    · simp only [set_eq_nil_iff] at hnone
      rw [hnone] at hcall
      cases hcall
  · cases hs

theorem Inv.step {a : HoldStep} (h : s.Inv) (hclean : s.isClean a) (hs : s.step a = some s') : s'.Inv := by
  cases a with
  | insert key weight => exact h.insert hs
  | room i victim => exact h.room hs
  | count i => exact h.count hclean hs
  | take key => exact h.take hs
  | forget segment =>
    cases hs
    exact ⟨h.word, h.counted, h.exact, h.fits⟩
  | forgetShard call =>
    obtain ⟨next, -, hs⟩ := Option.bind_eq_some_iff.mp hs
    exact h.forgetShard hs
  | clear =>
    cases hs
    exact ⟨h.word, h.counted, nofun, h.fits⟩
  | clearShard call =>
    obtain ⟨i, hi, hs⟩ := Option.bind_eq_some_iff.mp hs
    exact h.clearShard hi hclean hs

theorem Inv.new (budget typical : Nat) : (new budget typical).Inv := by
  have hzero : total Shard.counted (Hold.new budget typical).shards = 0 := by
    simp [Hold.new, total, Shard.counted, Lock.owes, weigh]
  refine ⟨by norm_num [Hold.new], hzero.le, fun _ => hzero.symm, ?_⟩
  intro shard hin
  rw [eq_of_mem_replicate hin]
  simp [Shard.Fits]

theorem byte_count_exact {budget typical : Nat} {steps : List HoldStep}
    (hclean : Meets step (isClean · · = true) (new budget typical) steps)
    (hrun : run step (new budget typical) steps = some s) :
    (∀ shard ∈ s.shards, shard.lock.owes ≤ s.bytes) ∧ (s.isIdle → s.bytes = s.held) := by
  have hinv : s.Inv := invariant_run Inv (fun _ _ _ => Inv.step) (Inv.new budget typical) hclean hrun
  refine ⟨fun shard hin => ?_, fun hidle => ?_⟩
  · exact shard.owes_le.trans ((le_total hin).trans hinv.counted)
  simp only [isIdle, Bool.and_eq_true, List.isEmpty_iff, all_eq_true, decide_eq_true_eq] at hidle
  rw [hinv.exact hidle.1.2]
  refine congrArg List.sum (map_congr_left fun shard hin => ?_)
  obtain ⟨slots, lock⟩ := shard
  cases hidle.2 _ hin
  rfl

theorem byte_count_exact_sample :
    ((run step (new 64 8) [.insert 1 5, .room 0 ⟨1, 5⟩, .clear, .count 0, .clearShard 0, .clearShard 0,
        .insert 2 7, .room 0 ⟨2, 7⟩, .count 0]).map fun s => (s.isIdle, s.bytes)) = some (true, 7) ∧
      ∀ s, run step (new 64 8) [.insert 1 5, .room 0 ⟨1, 5⟩, .clear, .count 0, .clearShard 0, .clearShard 0,
        .insert 2 7, .room 0 ⟨2, 7⟩, .count 0] = some s → s.isIdle → s.bytes = s.held :=
  ⟨by decide +kernel, fun _ hs => (byte_count_exact (by decide +kernel) hs).2⟩

/-- An insert lands between the emptying of its shard and the zeroing of the count: the entry stands
uncounted, and taking it out wraps the count. -/
theorem cleared_shard_refilled_uncounted :
    ((run step (new 64 8) [.clear, .clearShard 0, .insert 1 5, .room 0 ⟨1, 5⟩, .count 0, .clearShard 0]).map
        fun s => (s.isIdle, s.bytes, s.held)) = some (true, 0, 5) ∧
      (run step (new 64 8) [.clear, .clearShard 0, .insert 1 5, .room 0 ⟨1, 5⟩, .count 0, .clearShard 0,
        .take 1, .count 0]).map Hold.bytes = some (2 ^ 64 - 5) := by
  decide +kernel

end Hold
end Reel
