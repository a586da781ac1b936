import Meshbox.Event.Feed

/-
What holds of a feed over every run. The invariant counts, channel by
channel, the cases in the inbox and in sendCases against the subscriptions
whose Unsubscribe has not returned: each such subscription has one case, and
each subscription being removed has its case in sendCases, which is why a
removal never panics. A Send that holds the lock keeps its active cases as the
prefix of sendCases and the cases after it as ones it delivered to; counting
these against the subscriptions gives, when it returns, how often it delivered
to each channel.
-/

namespace Meshbox.Event

variable {Ch : Type} [DecidableEq Ch]

/-! ### Subscriptions counted for a channel -/

namespace feedSub

/-- The subscription's case is still in the feed: Unsubscribe has not returned. -/
def Held (c : Ch) (sub : feedSub Ch) : Bool := sub.channel = c && sub.status.removedAt.isNone

/-- Unsubscribe has not been called. -/
def Live (c : Ch) (sub : feedSub Ch) : Bool := sub.channel = c && sub.status = .live

/-- Unsubscribe has been called and has not returned. -/
def Removing (c : Ch) (sub : feedSub Ch) : Bool :=
  sub.channel = c && sub.status.unsubscribedAt.isSome && sub.status.removedAt.isNone

/-- Subscribed before time t, and Unsubscribe not called. -/
def LiveSince (c : Ch) (t : Nat) (sub : feedSub Ch) : Bool := sub.Live c && sub.subscribedAt < t

/-- Unsubscribe did not return before time t. -/
def KeptAfter (c : Ch) (t : Nat) (sub : feedSub Ch) : Bool :=
  sub.channel = c && sub.status.removedAt.all (t < ·)

/-- A subscription of c that holds for the whole of a Send: Subscribe returned
before the Send was called, and Unsubscribe was not called before it returned. -/
def Throughout (c : Ch) (calledAt returnedAt : Nat) (sub : feedSub Ch) : Bool :=
  sub.channel = c && sub.subscribedAt < calledAt && sub.status.unsubscribedAt.all (returnedAt < ·)

/-- A subscription of c that holds at some point of a Send: Subscribe returned
before the Send returned, and Unsubscribe did not return before it was called. -/
def Overlaps (c : Ch) (calledAt returnedAt : Nat) (sub : feedSub Ch) : Bool :=
  sub.channel = c && sub.subscribedAt < returnedAt && sub.status.removedAt.all (calledAt < ·)

end feedSub

/-- The times of a status are before t. -/
def SubStatus.Before (t : Nat) : SubStatus → Prop
  | .live => True
  | .removing calledAt => calledAt < t
  | .removed calledAt returnedAt => calledAt < t ∧ returnedAt < t

/-- The steps an Unsubscribe takes at time t: remove finds the case in the
inbox and returns, or goes on to its select, which returns. -/
inductive SubStatus.Next (t : Nat) : SubStatus → SubStatus → Prop where
  | fromInbox : SubStatus.Next t .live (.removed t t)
  | toSelect : SubStatus.Next t .live (.removing t)
  | fromSelect (calledAt : Nat) : SubStatus.Next t (.removing calledAt) (.removed calledAt t)

section Counting

variable {α : Type}

/-- Replacing the entry at k: the count loses the old entry and gains the new. -/
theorem countP_set_add {l : List α} {k : Nat} {old : α} (found : l[k]? = some old) (p : α → Bool) (new : α) :
    (l.set k new).countP p + (if p old then 1 else 0) = l.countP p + (if p new then 1 else 0) := by
  obtain ⟨inside, atK⟩ := List.getElem?_eq_some_iff.mp found
  have counted : (if p old then 1 else 0) ≤ l.countP p := by
    split_ifs with holds
    · exact List.countP_pos_iff.mpr ⟨old, atK ▸ List.getElem_mem inside, holds⟩
    · exact Nat.zero_le _
  rw [List.countP_set inside, atK]
  omega

theorem countP_set_of_eq {l : List α} {k : Nat} {old : α} (found : l[k]? = some old) {p : α → Bool} {new : α}
    (same : p new = p old) : (l.set k new).countP p = l.countP p := by
  have := countP_set_add found p new
  rw [same] at this
  omega

theorem countP_append_singleton (l : List α) (p : α → Bool) (new : α) :
    (l ++ [new]).countP p = l.countP p + (if p new then 1 else 0) := by
  simp [List.countP_append, List.countP_cons]

/-- A predicate stronger than another, failing at one entry where the other
holds, counts at least one entry less. -/
theorem countP_add_one_le {p q : α → Bool} {l : List α} (stronger : ∀ x ∈ l, p x → q x) {y : α} (member : y ∈ l)
    (holds : q y = true) (fails : p y = false) : l.countP p + 1 ≤ l.countP q := by
  induction l with
  | nil => cases member
  | cons x rest inductionHypothesis =>
    have restStronger : ∀ z ∈ rest, p z → q z := fun z later => stronger z (List.mem_cons_of_mem _ later)
    have restLe : rest.countP p ≤ rest.countP q := List.countP_mono_left restStronger
    have atX := stronger x List.mem_cons_self
    simp only [List.countP_cons]
    rcases List.mem_cons.mp member with rfl | later
    · simp only [holds, fails, if_true, Bool.false_eq_true, if_false]
      omega
    · have restStrict := inductionHypothesis restStronger later
      by_cases px : p x <;> by_cases qx : q x <;> simp_all

end Counting

namespace feedSub

/-- Every subscription of c not yet removed is either live or being removed. -/
theorem countP_held (c : Ch) (subs : List (feedSub Ch)) :
    subs.countP (Held c) = subs.countP (Removing c) + subs.countP (Live c) := by
  induction subs with
  | nil => rfl
  | cons sub rest inductionHypothesis =>
    simp only [List.countP_cons, inductionHypothesis]
    rcases sub with ⟨channel, subscribedAt, status⟩
    cases status <;> by_cases same : channel = c <;>
      simp [Held, Removing, Live, SubStatus.unsubscribedAt, SubStatus.removedAt, same] <;> omega

theorem countP_liveSince_le_live (c : Ch) (t : Nat) (subs : List (feedSub Ch)) :
    subs.countP (LiveSince c t) ≤ subs.countP (Live c) :=
  List.countP_mono_left fun sub _ since => by
    simp only [LiveSince, Bool.and_eq_true] at since
    exact since.1

theorem countP_held_le_keptAfter (c : Ch) (t : Nat) (subs : List (feedSub Ch)) :
    subs.countP (Held c) ≤ subs.countP (KeptAfter c t) :=
  List.countP_mono_left fun sub _ held => by
    simp only [Held, KeptAfter, Bool.and_eq_true, Option.isNone_iff_eq_none] at held ⊢
    simp [held.1, held.2]

/-! ### What an Unsubscribe step changes -/

section Next

variable {t : Nat} {old new : SubStatus}

/-- A subscription is no longer live once its Unsubscribe has been called. -/
theorem liveSince_next (next : SubStatus.Next t old new) (c : Ch) (since : Nat) (sub : feedSub Ch) :
    LiveSince c since { sub with status := new } = false := by
  cases next <;> simp [LiveSince, Live]

theorem keptAfter_next (next : SubStatus.Next t old new) {c : Ch} {since : Nat} (before : since < t)
    (sub : feedSub Ch) : KeptAfter c since { sub with status := new } = KeptAfter c since { sub with status := old } := by
  cases next <;> simp [KeptAfter, SubStatus.removedAt, before]

theorem throughout_next (next : SubStatus.Next t old new) {c : Ch} {calledAt returnedAt : Nat}
    (before : returnedAt < t) (sub : feedSub Ch) :
    Throughout c calledAt returnedAt { sub with status := new } =
      Throughout c calledAt returnedAt { sub with status := old } := by
  cases next <;> simp [Throughout, SubStatus.unsubscribedAt, before]

theorem overlaps_next (next : SubStatus.Next t old new) {c : Ch} {calledAt returnedAt : Nat}
    (before : calledAt < t) (sub : feedSub Ch) :
    Overlaps c calledAt returnedAt { sub with status := new } =
      Overlaps c calledAt returnedAt { sub with status := old } := by
  cases next <;> simp [Overlaps, SubStatus.removedAt, before]

end Next

end feedSub

/-! ### The invariant -/

/-- What a Send delivering to its first cases keeps: they are a prefix of
sendCases, the cases after it are cases it delivered to, it counted its
deliveries, and, channel by channel, what it delivered and has left to deliver
lies between the subscriptions live since its call and those not removed
before it. -/
structure DeliveringOk (sendCases : List Ch) (subs : List (feedSub Ch)) (call : SendCall Ch) (cases nsent : Nat) :
    Prop where
  bounded : cases ≤ sendCases.length
  counted : nsent = call.delivered.length
  inactive : ∀ c, (sendCases.drop cases).count c ≤ call.delivered.count c
  upper : ∀ c, call.delivered.count c + (sendCases.take cases).count c ≤ subs.countP (feedSub.KeptAfter c call.calledAt)
  lower : ∀ c, subs.countP (feedSub.LiveSince c call.calledAt) + subs.countP (feedSub.Removing c) ≤ sendCases.count c

/-- What a Send that returned nsent at returnedAt delivered. -/
structure ReturnedOk (subs : List (feedSub Ch)) (call : SendCall Ch) (nsent returnedAt : Nat) : Prop where
  counted : nsent = call.delivered.length
  lower : ∀ c, subs.countP (feedSub.Throughout c call.calledAt returnedAt) ≤ call.delivered.count c
  upper : ∀ c, call.delivered.count c ≤ subs.countP (feedSub.Overlaps c call.calledAt returnedAt)

/-- What a Send keeps in each phase. -/
def PhaseOk (sendCases : List Ch) (subs : List (feedSub Ch)) (call : SendCall Ch) : SendPhase → Prop
  | .waiting | .locked => call.delivered = []
  | .delivering cases nsent => DeliveringOk sendCases subs call cases nsent
  | .returned nsent returnedAt => ReturnedOk subs call nsent returnedAt

/-- A return is before t. -/
def SendPhase.Before (t : Nat) : SendPhase → Prop
  | .returned _ returnedAt => returnedAt < t
  | _ => True

structure SendOk (f : Feed Ch) (call : SendCall Ch) : Prop where
  calledBefore : call.calledAt < f.time
  phaseBefore : call.phase.Before f.time
  phase : PhaseOk f.sendCases f.subs call call.phase

/-! ### Sends the step does not touch -/

theorem SendPhase.Before.mono {t t' : Nat} {phase : SendPhase} (before : phase.Before t) (later : t ≤ t') :
    phase.Before t' := by
  cases phase with
  | returned nsent returnedAt => exact Nat.lt_of_lt_of_le before later
  | _ => trivial

/-- A Send that does not hold the lock keeps nothing about sendCases. -/
theorem PhaseOk.of_idle {sendCases sendCases' : List Ch} {subs : List (feedSub Ch)} {call : SendCall Ch}
    {phase : SendPhase} (ok : PhaseOk sendCases subs call phase) (idle : phase.holdsLock = false) :
    PhaseOk sendCases' subs call phase := by
  cases phase with
  | waiting => exact ok
  | returned nsent returnedAt => exact ok
  | locked => cases idle
  | delivering cases nsent => cases idle

theorem SendOk.later {f f' : Feed Ch} {call : SendCall Ch} (ok : SendOk f call) (cases : f'.sendCases = f.sendCases)
    (subs : f'.subs = f.subs) (later : f.time ≤ f'.time) : SendOk f' call :=
  ⟨Nat.lt_of_lt_of_le ok.calledBefore later, ok.phaseBefore.mono later, by rw [cases, subs]; exact ok.phase⟩

theorem SendOk.idle {f f' : Feed Ch} {call : SendCall Ch} (ok : SendOk f call) (idle : call.phase.holdsLock = false)
    (subs : f'.subs = f.subs) (later : f.time ≤ f'.time) : SendOk f' call :=
  ⟨Nat.lt_of_lt_of_le ok.calledBefore later, ok.phaseBefore.mono later, by rw [subs]; exact ok.phase.of_idle idle⟩

theorem SubStatus.Before.mono {t t' : Nat} {status : SubStatus} (before : status.Before t) (later : t ≤ t') :
    status.Before t' := by
  cases status with
  | live => trivial
  | removing calledAt => exact Nat.lt_of_lt_of_le before later
  | removed calledAt returnedAt => exact ⟨Nat.lt_of_lt_of_le before.1 later, Nat.lt_of_lt_of_le before.2 later⟩

section Unsubscribed

variable {subs : List (feedSub Ch)} {call : SendCall Ch} {k t : Nat} {sub : feedSub Ch} {new : SubStatus}

/-- A returned Send's counts do not see a later Unsubscribe step. -/
theorem ReturnedOk.set_next {nsent returnedAt : Nat} (ok : ReturnedOk subs call nsent returnedAt)
    (found : subs[k]? = some sub) (next : SubStatus.Next t sub.status new) (calledBefore : call.calledAt < t)
    (returnedBefore : returnedAt < t) : ReturnedOk (subs.set k { sub with status := new }) call nsent returnedAt where
  counted := ok.counted
  lower c := by
    rw [countP_set_of_eq found (p := feedSub.Throughout c call.calledAt returnedAt)
      (feedSub.throughout_next next returnedBefore sub)]
    exact ok.lower c
  upper c := by
    rw [countP_set_of_eq found (p := feedSub.Overlaps c call.calledAt returnedAt)
      (feedSub.overlaps_next next calledBefore sub)]
    exact ok.upper c

/-- An Unsubscribe step leaves the subscriptions not removed before a Send's
call as they are, and takes one from those live since it. -/
theorem keptAfter_set_next (found : subs[k]? = some sub) (next : SubStatus.Next t sub.status new)
    (calledBefore : call.calledAt < t) (c : Ch) :
    (subs.set k { sub with status := new }).countP (feedSub.KeptAfter c call.calledAt) =
      subs.countP (feedSub.KeptAfter c call.calledAt) :=
  countP_set_of_eq found (feedSub.keptAfter_next next calledBefore sub)

theorem liveSince_set_next (found : subs[k]? = some sub) (next : SubStatus.Next t sub.status new) (c : Ch)
    (since : Nat) :
    (subs.set k { sub with status := new }).countP (feedSub.LiveSince c since) + (if sub.LiveSince c since then 1 else 0) =
      subs.countP (feedSub.LiveSince c since) := by
  have := countP_set_add found (feedSub.LiveSince c since) { sub with status := new }
  rw [feedSub.liveSince_next next] at this
  simpa using this

end Unsubscribed

namespace Feed

/-- Send j holds the send lock. -/
def HoldsLock (f : Feed Ch) (j : Nat) : Prop := ∃ call, f.sends[j]? = some call ∧ call.phase.holdsLock = true

/-- The invariant of a feed. At most one Send holds the send lock, and none
while it is free; every subscription not yet removed has one case in the inbox
or in sendCases, and one being removed has it in sendCases; the times recorded
are past; and every Send keeps what its phase says. -/
structure Inv (f : Feed Ch) : Prop where
  free : f.sendLock = true → ∀ j, ¬ f.HoldsLock j
  single : ∀ j j', f.HoldsLock j → f.HoldsLock j' → j = j'
  balance : ∀ c, f.inbox.count c + f.sendCases.count c = f.subs.countP (feedSub.Held c)
  covered : ∀ c, f.subs.countP (feedSub.Removing c) ≤ f.sendCases.count c
  subsBefore : ∀ sub ∈ f.subs, sub.subscribedAt < f.time ∧ sub.status.Before f.time
  sends : ∀ (i : Nat) (call : SendCall Ch), f.sends[i]? = some call → SendOk f call

theorem init_inv : (init : Feed Ch).Inv where
  free := by simp [init, HoldsLock]
  single := by simp [init, HoldsLock]
  balance := by simp [init]
  covered := by simp [init]
  subsBefore := by simp [init]
  sends := by simp [init]

/-! ### The lock -/

section Lock

variable {f f' : Feed Ch}

theorem getElem?_set_of_found {α : Type} {l : List α} {i : Nat} {a : α} (found : l[i]? = some a) (b : α) (j : Nat) :
    (l.set i b)[j]? = if i = j then some b else l[j]? := by
  have inside := (List.getElem?_eq_some_iff.mp found).1
  simp [List.getElem?_set, inside]

omit [DecidableEq Ch] in
/-- A step that changes Send i from one phase to another that holds the lock
as the first did leaves the holders as they are. -/
theorem holdsLock_set_iff {i : Nat} {call call' : SendCall Ch} (found : f.sends[i]? = some call)
    (same : call'.phase.holdsLock = call.phase.holdsLock) (sends : f'.sends = f.sends.set i call') (j : Nat) :
    f'.HoldsLock j ↔ f.HoldsLock j := by
  unfold HoldsLock
  rw [sends, getElem?_set_of_found found]
  by_cases atI : i = j
  · subst atI
    simp [found, same]
  · simp [atI]

theorem Inv.free_set (inv : f.Inv) {i : Nat} {call call' : SendCall Ch} (found : f.sends[i]? = some call)
    (same : call'.phase.holdsLock = call.phase.holdsLock) (sends : f'.sends = f.sends.set i call')
    (lock : f'.sendLock = f.sendLock) : f'.sendLock = true → ∀ j, ¬ f'.HoldsLock j := by
  simp only [holdsLock_set_iff found same sends, lock]
  exact inv.free

theorem Inv.single_set (inv : f.Inv) {i : Nat} {call call' : SendCall Ch} (found : f.sends[i]? = some call)
    (same : call'.phase.holdsLock = call.phase.holdsLock) (sends : f'.sends = f.sends.set i call') :
    ∀ j j', f'.HoldsLock j → f'.HoldsLock j' → j = j' := by
  simp only [holdsLock_set_iff found same sends]
  exact inv.single

/-- The Send holding the lock is the only Send delivering. -/
theorem Inv.idle_of_holder (inv : f.Inv) {i j : Nat} (holder : f.HoldsLock i) {call : SendCall Ch}
    (found : f.sends[j]? = some call) (other : i ≠ j) : call.phase.holdsLock = false := by
  cases holding : call.phase.holdsLock with
  | false => rfl
  | true => exact absurd (inv.single i j holder ⟨call, found, holding⟩) other

theorem Inv.idle_of_free (inv : f.Inv) (free : f.sendLock = true) {j : Nat} {call : SendCall Ch}
    (found : f.sends[j]? = some call) : call.phase.holdsLock = false := by
  cases holding : call.phase.holdsLock with
  | false => rfl
  | true => exact absurd ⟨call, found, holding⟩ (inv.free free j)

omit [DecidableEq Ch] in
/-- Every Send other than the one at i is where it was. -/
theorem sends_set_other {i j : Nat} {call call' other : SendCall Ch} (found : f.sends[i]? = some call)
    (sends : f'.sends = f.sends.set i call') (atJ : f'.sends[j]? = some other) :
    (i = j ∧ other = call') ∨ (i ≠ j ∧ f.sends[j]? = some other) := by
  rw [sends, getElem?_set_of_found found] at atJ
  by_cases atI : i = j
  · rw [if_pos atI, Option.some.injEq] at atJ
    exact .inl ⟨atI, atJ.symm⟩
  · rw [if_neg atI] at atJ
    exact .inr ⟨atI, atJ⟩

end Lock

end Feed

open Feed

/-! ### The steps of Send -/

section Sending

variable {f f' : Feed Ch}

theorem Feed.Inv.subsBefore_succ (inv : f.Inv) :
    ∀ sub ∈ f.subs, sub.subscribedAt < f.time + 1 ∧ sub.status.Before (f.time + 1) := fun sub member =>
  ⟨Nat.lt_succ_of_lt (inv.subsBefore sub member).1, SubStatus.Before.mono (inv.subsBefore sub member).2 (Nat.le_succ _)⟩

theorem Feed.Inv.Send (inv : f.Inv) : f.Send.Inv := by
  -- the new call waits, and every other call is where it was
  have atJ : ∀ (j : Nat) (call : SendCall Ch), f.Send.sends[j]? = some call →
      f.sends[j]? = some call ∨ call = ⟨f.time, .waiting, []⟩ := by
    intro j call found
    simp only [Feed.Send, List.getElem?_append, List.getElem?_singleton] at found
    split_ifs at found with inside
    · exact .inl found
    · exact .inr (Option.some.inj found).symm
  have holds : ∀ j, f.Send.HoldsLock j → f.HoldsLock j := by
    rintro j ⟨call, found, holding⟩
    rcases atJ j call found with old | rfl
    · exact ⟨call, old, holding⟩
    · cases holding
  refine ⟨fun free j holder => inv.free free j (holds j holder), fun j j' first second =>
    inv.single j j' (holds j first) (holds j' second), inv.balance, inv.covered, inv.subsBefore_succ,
    fun j call found => ?_⟩
  rcases atJ j call found with old | rfl
  · exact (inv.sends j call old).later rfl rfl (Nat.le_succ _)
  · exact ⟨Nat.lt_succ_self _, trivial, rfl⟩

theorem Feed.Inv.sendAcquire (inv : f.Inv) {i : Nat} (stepped : f.sendAcquire i = some f') : f'.Inv := by
  obtain ⟨call, found, waiting, free, rfl⟩ := sendAcquire_eq_some stepped
  have holder : ∀ j, HoldsLock { f with
      sendLock := false, sends := f.sends.set i { call with phase := .locked }, time := f.time + 1 } j → j = i := by
    rintro j ⟨other, atJ, holding⟩
    rcases sends_set_other found rfl atJ with ⟨atI, -⟩ | ⟨-, old⟩
    · exact atI.symm
    · exact absurd ⟨other, old, holding⟩ (inv.free free j)
  refine ⟨(fun locked => nomatch locked), fun j j' first second => (holder j first).trans (holder j' second).symm,
    inv.balance, inv.covered, inv.subsBefore_succ, fun j other atJ => ?_⟩
  have ok := inv.sends i call found
  rcases sends_set_other found rfl atJ with ⟨-, rfl⟩ | ⟨-, old⟩
  · -- a waiting call has delivered nothing, and still has not
    have nothing : call.delivered = [] := by
      have := ok.phase
      rw [waiting] at this
      exact this
    exact ⟨Nat.lt_succ_of_lt ok.calledBefore, trivial, nothing⟩
  · exact (inv.sends j other old).later rfl rfl (Nat.le_succ _)

/-- Taking the inbox makes every case of sendCases active: what they are is
what the subscriptions not yet removed hold. -/
theorem Feed.Inv.collected (inv : f.Inv) {call : SendCall Ch} (nothing : call.delivered = []) :
    DeliveringOk (f.sendCases ++ f.inbox) f.subs call (f.sendCases ++ f.inbox).length 0 where
  bounded := Nat.le_refl _
  counted := by rw [nothing]; rfl
  inactive c := by simp
  upper c := by
    have balanced := inv.balance c
    rw [nothing, List.take_length, List.count_nil, Nat.zero_add, List.count_append]
    exact Nat.le_trans (by omega) (feedSub.countP_held_le_keptAfter c call.calledAt f.subs)
  lower c := by
    have balanced := inv.balance c
    have held := feedSub.countP_held c f.subs
    have live := feedSub.countP_liveSince_le_live c call.calledAt f.subs
    rw [List.count_append]
    omega

theorem Feed.Inv.sendCollect (inv : f.Inv) {i : Nat} (stepped : f.sendCollect i = some f') : f'.Inv := by
  obtain ⟨call, found, locked, rfl⟩ := sendCollect_eq_some stepped
  have holder : f.HoldsLock i := ⟨call, found, by simp [locked, SendPhase.holdsLock]⟩
  refine ⟨inv.free_set found (by simp [locked, SendPhase.holdsLock]) rfl rfl,
    inv.single_set found (by simp [locked, SendPhase.holdsLock]) rfl, fun c => ?_, fun c => ?_, inv.subsBefore_succ, fun j other atJ => ?_⟩
  · -- the inbox moves to the end of sendCases
    have balanced := inv.balance c
    simp only [List.count_nil, List.count_append]
    omega
  · have covered := inv.covered c
    simp only [List.count_append]
    omega
  · rcases sends_set_other found rfl atJ with ⟨-, rfl⟩ | ⟨other', old⟩
    · have ok := inv.sends i call found
      have nothing : call.delivered = [] := by
        have := ok.phase
        rw [locked] at this
        exact this
      exact ⟨Nat.lt_succ_of_lt ok.calledBefore, trivial, inv.collected nothing⟩
    · exact (inv.sends j other old).idle (inv.idle_of_holder holder old other') rfl (Nat.le_succ _)

/-- A delivery moves the case from the active prefix to the cases delivered to. -/
theorem DeliveringOk.deliver {sendCases : List Ch} {subs : List (feedSub Ch)} {call : SendCall Ch}
    {cases nsent index : Nat} (ok : DeliveringOk sendCases subs call cases nsent) (inside : index < sendCases.length)
    (chosen : index < cases) :
    DeliveringOk (caseList.deactivate sendCases cases index) subs
      { call with phase := .delivering (cases - 1) (nsent + 1), delivered := call.delivered ++ [sendCases[index]] }
      (cases - 1) (nsent + 1) where
  bounded := by
    have := ok.bounded
    rw [caseList.length_deactivate]
    omega
  counted := by simp [ok.counted]
  inactive c := by
    obtain ⟨-, after⟩ := caseList.deactivate_counts chosen ok.bounded c
    have inactive := ok.inactive c
    simp only [List.count_append, List.count_singleton, beq_iff_eq, after]
    omega
  upper c := by
    obtain ⟨before, -⟩ := caseList.deactivate_counts chosen ok.bounded c
    have upper := ok.upper c
    simp only [List.count_append, List.count_singleton, beq_iff_eq]
    omega
  lower c := by
    rw [caseList.count_deactivate chosen ok.bounded]
    exact ok.lower c

theorem Feed.Inv.sendDeliver (inv : f.Inv) {i index : Nat} (stepped : f.sendDeliver i index = some f') : f'.Inv := by
  obtain ⟨call, cases, nsent, inside, found, delivering, chosen, rfl⟩ := sendDeliver_eq_some stepped
  have holder : f.HoldsLock i := ⟨call, found, by rw [delivering]; rfl⟩
  have ok := inv.sends i call found
  have delivery : DeliveringOk f.sendCases f.subs call cases nsent := by
    have := ok.phase
    rw [delivering] at this
    exact this
  refine ⟨inv.free_set found (by simp [delivering, SendPhase.holdsLock]) rfl rfl,
    inv.single_set found (by simp [delivering, SendPhase.holdsLock]) rfl, fun c => ?_, fun c => ?_, inv.subsBefore_succ, fun j other atJ => ?_⟩
  · rw [caseList.count_deactivate chosen delivery.bounded]
    exact inv.balance c
  · rw [caseList.count_deactivate chosen delivery.bounded]
    exact inv.covered c
  · rcases sends_set_other found rfl atJ with ⟨-, rfl⟩ | ⟨other', old⟩
    · exact ⟨Nat.lt_succ_of_lt ok.calledBefore, trivial, delivery.deliver inside chosen⟩
    · exact (inv.sends j other old).idle (inv.idle_of_holder holder old other') rfl (Nat.le_succ _)

/-- At its return a subscription that held throughout the Send is one that was
live since its call, for Unsubscribe has not been called since. -/
theorem feedSub.liveSince_of_throughout {c : Ch} {calledAt t : Nat} {sub : feedSub Ch} (before : sub.status.Before t)
    (holds : sub.Throughout c calledAt t = true) : sub.LiveSince c calledAt = true := by
  rcases sub with ⟨channel, subscribedAt, status⟩
  cases status <;>
    simp_all [feedSub.Throughout, feedSub.LiveSince, feedSub.Live, SubStatus.unsubscribedAt, SubStatus.Before] <;> omega

/-- The Send returns when it has no active case left: every case of sendCases
is one it delivered to. -/
theorem Feed.Inv.returned (inv : f.Inv) {call : SendCall Ch} {nsent : Nat}
    (ok : DeliveringOk f.sendCases f.subs call 0 nsent) (phase : SendPhase) :
    ReturnedOk f.subs { call with phase } nsent f.time where
  counted := ok.counted
  lower c := calc
      f.subs.countP (feedSub.Throughout c call.calledAt f.time) ≤ f.subs.countP (feedSub.LiveSince c call.calledAt) :=
        List.countP_mono_left fun sub member holds =>
          feedSub.liveSince_of_throughout (inv.subsBefore sub member).2 holds
      _ ≤ f.sendCases.count c := Nat.le_trans (Nat.le_add_right _ _) (ok.lower c)
      _ ≤ call.delivered.count c := by simpa using ok.inactive c
  upper c := calc
      call.delivered.count c ≤ f.subs.countP (feedSub.KeptAfter c call.calledAt) :=
        Nat.le_trans (Nat.le_add_right _ _) (ok.upper c)
      _ ≤ f.subs.countP (feedSub.Overlaps c call.calledAt f.time) :=
        List.countP_mono_left fun sub member kept => by
          simp only [feedSub.KeptAfter, feedSub.Overlaps, Bool.and_eq_true, decide_eq_true_eq] at kept ⊢
          exact ⟨⟨kept.1, (inv.subsBefore sub member).1⟩, kept.2⟩

theorem Feed.Inv.sendReturn (inv : f.Inv) {i : Nat} (stepped : f.sendReturn i = some f') : f'.Inv := by
  obtain ⟨call, nsent, found, delivering, rfl⟩ := sendReturn_eq_some stepped
  have holder : f.HoldsLock i := ⟨call, found, by rw [delivering]; rfl⟩
  -- the returning Send gives the lock back, and no other Send held it
  have noHolder : ∀ j, ¬ HoldsLock { f with
      sendLock := true, sends := f.sends.set i { call with phase := .returned nsent f.time }, time := f.time + 1 } j := by
    rintro j ⟨other, atJ, holding⟩
    rcases sends_set_other found rfl atJ with ⟨-, rfl⟩ | ⟨other', old⟩
    · simp [SendPhase.holdsLock] at holding
    · exact other' (inv.single i j holder ⟨other, old, holding⟩)
  refine ⟨fun _ => noHolder, fun j _ first _ => absurd first (noHolder j), inv.balance, inv.covered,
    inv.subsBefore_succ, fun j other atJ => ?_⟩
  rcases sends_set_other found rfl atJ with ⟨-, rfl⟩ | ⟨-, old⟩
  · have ok := inv.sends i call found
    have delivery : DeliveringOk f.sendCases f.subs call 0 nsent := by
      have := ok.phase
      rw [delivering] at this
      exact this
    exact ⟨Nat.lt_succ_of_lt ok.calledBefore, Nat.lt_succ_self _, inv.returned delivery _⟩
  · exact (inv.sends j other old).later rfl rfl (Nat.le_succ _)

end Sending

/-! ### The steps of Subscribe and Unsubscribe -/

section Subscribing

variable {f f' : Feed Ch}

/-- A subscription made at time t counts for no Send called or returned by then. -/
theorem countP_subscribe (subs : List (feedSub Ch)) (channel : Ch) {t calledAt returnedAt : Nat} (c : Ch)
    (calledBefore : calledAt ≤ t) (returnedBefore : returnedAt ≤ t) :
    (subs ++ [(⟨channel, t, .live⟩ : feedSub Ch)]).countP (feedSub.LiveSince c calledAt) =
      subs.countP (feedSub.LiveSince c calledAt) ∧
    (subs ++ [(⟨channel, t, .live⟩ : feedSub Ch)]).countP (feedSub.Removing c) = subs.countP (feedSub.Removing c) ∧
    subs.countP (feedSub.KeptAfter c calledAt) ≤
      (subs ++ [(⟨channel, t, .live⟩ : feedSub Ch)]).countP (feedSub.KeptAfter c calledAt) ∧
    (subs ++ [(⟨channel, t, .live⟩ : feedSub Ch)]).countP (feedSub.Throughout c calledAt returnedAt) =
      subs.countP (feedSub.Throughout c calledAt returnedAt) ∧
    (subs ++ [(⟨channel, t, .live⟩ : feedSub Ch)]).countP (feedSub.Overlaps c calledAt returnedAt) =
      subs.countP (feedSub.Overlaps c calledAt returnedAt) := by
  simp only [countP_append_singleton]
  refine ⟨?_, ?_, Nat.le_add_right _ _, ?_, ?_⟩ <;>
    simp [feedSub.LiveSince, feedSub.Live, feedSub.Removing, feedSub.Throughout, feedSub.Overlaps,
      SubStatus.unsubscribedAt, SubStatus.removedAt] <;> omega

theorem PhaseOk.subscribe {sendCases : List Ch} {subs : List (feedSub Ch)} {call : SendCall Ch} {phase : SendPhase}
    (ok : PhaseOk sendCases subs call phase) (channel : Ch) {t : Nat} (calledBefore : call.calledAt ≤ t)
    (phaseBefore : phase.Before t) : PhaseOk sendCases (subs ++ [⟨channel, t, .live⟩]) call phase := by
  cases phase with
  | waiting => exact ok
  | locked => exact ok
  | delivering cases nsent =>
    refine ⟨ok.bounded, ok.counted, ok.inactive, fun c => ?_, fun c => ?_⟩
    · obtain ⟨-, -, kept, -, -⟩ := countP_subscribe subs channel c calledBefore (Nat.zero_le t)
      exact Nat.le_trans (ok.upper c) kept
    · obtain ⟨since, removing, -, -, -⟩ := countP_subscribe subs channel c calledBefore (Nat.zero_le t)
      rw [since, removing]
      exact ok.lower c
  | returned nsent returnedAt =>
    refine ⟨ok.counted, fun c => ?_, fun c => ?_⟩
    · obtain ⟨-, -, -, throughout, -⟩ := countP_subscribe subs channel c calledBefore (Nat.le_of_lt phaseBefore)
      rw [throughout]
      exact ok.lower c
    · obtain ⟨-, -, -, -, overlaps⟩ := countP_subscribe subs channel c calledBefore (Nat.le_of_lt phaseBefore)
      rw [overlaps]
      exact ok.upper c

theorem SendOk.Subscribe {call : SendCall Ch} (ok : SendOk f call) (channel : Ch) : SendOk (f.Subscribe channel) call :=
  ⟨Nat.lt_succ_of_lt ok.calledBefore, ok.phaseBefore.mono (Nat.le_succ _),
    PhaseOk.subscribe ok.phase channel (Nat.le_of_lt ok.calledBefore) ok.phaseBefore⟩

theorem Feed.Inv.Subscribe (inv : f.Inv) (channel : Ch) : (f.Subscribe channel).Inv where
  free := inv.free
  single := inv.single
  balance c := by
    have balanced := inv.balance c
    simp only [Feed.Subscribe, List.count_append, List.count_singleton, beq_iff_eq, countP_append_singleton]
    simp only [feedSub.Held, SubStatus.removedAt, Option.isNone_none, Bool.and_true, decide_eq_true_eq]
    omega
  covered c := by
    have covered := inv.covered c
    obtain ⟨-, removing, -, -, -⟩ := countP_subscribe f.subs channel c (Nat.zero_le f.time) (Nat.zero_le f.time)
    simp only [Feed.Subscribe, removing]
    exact covered
  subsBefore sub member := by
    rcases List.mem_append.mp member with old | new
    · exact inv.subsBefore_succ sub old
    · rw [List.mem_singleton.mp new]
      exact ⟨Nat.lt_succ_self _, trivial⟩
  sends i call found := (inv.sends i call found).Subscribe channel

end Subscribing

section Unsubscribing

variable {f f' : Feed Ch}

/-- Unsubscribe's first step takes a live subscription out of the count of
those not removed when it finds the case in the inbox, and keeps it there
otherwise. -/
theorem countP_held_set {subs : List (feedSub Ch)} {k : Nat} {sub : feedSub Ch} (found : subs[k]? = some sub)
    (live : sub.status = .live) (c : Ch) (t : Nat) :
    (subs.set k { sub with status := .removed t t }).countP (feedSub.Held c) + (if sub.channel = c then 1 else 0) =
      subs.countP (feedSub.Held c) ∧
    (subs.set k { sub with status := .removing t }).countP (feedSub.Held c) = subs.countP (feedSub.Held c) := by
  have removed := countP_set_add found (feedSub.Held c) { sub with status := .removed t t }
  have removing := countP_set_add found (feedSub.Held c) { sub with status := .removing t }
  simp only [feedSub.Held, live, SubStatus.removedAt, Option.isNone_none, Option.isNone_some, Bool.and_true,
    Bool.and_false, decide_eq_true_eq] at removed removing
  split_ifs at removed removing ⊢ <;> simp_all

theorem countP_removing_set {subs : List (feedSub Ch)} {k : Nat} {sub : feedSub Ch} (found : subs[k]? = some sub)
    (live : sub.status = .live) (c : Ch) (t : Nat) :
    (subs.set k { sub with status := .removed t t }).countP (feedSub.Removing c) = subs.countP (feedSub.Removing c) ∧
    (subs.set k { sub with status := .removing t }).countP (feedSub.Removing c) =
      subs.countP (feedSub.Removing c) + (if sub.channel = c then 1 else 0) := by
  have removed := countP_set_add found (feedSub.Removing c) { sub with status := .removed t t }
  have removing := countP_set_add found (feedSub.Removing c) { sub with status := .removing t }
  simp only [feedSub.Removing, live, SubStatus.removedAt, SubStatus.unsubscribedAt, Option.isNone_none,
    Option.isSome_none, Option.isSome_some, Option.isNone_some, Bool.and_true, Bool.and_false,
    decide_eq_true_eq] at removed removing
  split_ifs at removed removing ⊢ <;> simp_all

/-- remove's select takes a subscription being removed out of both counts. -/
theorem countP_set_fromSelect {subs : List (feedSub Ch)} {k : Nat} {sub : feedSub Ch} {calledAt : Nat}
    (found : subs[k]? = some sub) (removing : sub.status = .removing calledAt) (c : Ch) (t : Nat) :
    (subs.set k { sub with status := .removed calledAt t }).countP (feedSub.Held c) + (if sub.channel = c then 1 else 0) =
      subs.countP (feedSub.Held c) ∧
    (subs.set k { sub with status := .removed calledAt t }).countP (feedSub.Removing c) +
      (if sub.channel = c then 1 else 0) = subs.countP (feedSub.Removing c) := by
  have held := countP_set_add found (feedSub.Held c) { sub with status := .removed calledAt t }
  have gone := countP_set_add found (feedSub.Removing c) { sub with status := .removed calledAt t }
  simp only [feedSub.Held, feedSub.Removing, removing, SubStatus.removedAt, SubStatus.unsubscribedAt,
    Option.isNone_none, Option.isSome_some, Option.isNone_some, Bool.and_true, Bool.and_false,
    decide_eq_true_eq] at held gone
  split_ifs at held gone ⊢ <;> simp_all

/-- An Unsubscribe step at time t records only times up to t. -/
theorem SubStatus.Next.before {t : Nat} {old new : SubStatus} (next : SubStatus.Next t old new) (before : old.Before t) :
    new.Before (t + 1) := by
  cases next with
  | fromInbox => exact ⟨Nat.lt_succ_self _, Nat.lt_succ_self _⟩
  | toSelect => exact Nat.lt_succ_self _
  | fromSelect calledAt => exact ⟨Nat.lt_succ_of_lt before, Nat.lt_succ_self _⟩

/-- The subscription changed by an Unsubscribe step keeps its times past. -/
theorem Feed.Inv.subsBefore_set (inv : f.Inv) {k : Nat} {sub : feedSub Ch} {new : SubStatus}
    (found : f.subs[k]? = some sub) (next : SubStatus.Next f.time sub.status new) :
    ∀ sub' ∈ f.subs.set k { sub with status := new }, sub'.subscribedAt < f.time + 1 ∧ sub'.status.Before (f.time + 1) := by
  intro sub' member
  rcases List.mem_or_eq_of_mem_set member with old | rfl
  · exact inv.subsBefore_succ sub' old
  · obtain ⟨subscribed, before⟩ := inv.subsBefore sub (List.mem_of_getElem? found)
    exact ⟨Nat.lt_succ_of_lt subscribed, next.before before⟩

/-- A Send that does not hold the lock keeps its counts over an Unsubscribe
step, whatever happens to sendCases. -/
theorem PhaseOk.set_next_idle {sendCases sendCases' : List Ch} {subs : List (feedSub Ch)} {call : SendCall Ch}
    {phase : SendPhase} (ok : PhaseOk sendCases subs call phase) (idle : phase.holdsLock = false) {k t : Nat}
    {sub : feedSub Ch} {new : SubStatus} (found : subs[k]? = some sub) (next : SubStatus.Next t sub.status new)
    (calledBefore : call.calledAt < t) (phaseBefore : phase.Before t) :
    PhaseOk sendCases' (subs.set k { sub with status := new }) call phase := by
  cases phase with
  | waiting => exact ok
  | returned nsent returnedAt => exact ReturnedOk.set_next ok found next calledBefore phaseBefore
  | locked => cases idle
  | delivering cases nsent => cases idle

/-- A delivering Send keeps its counts over an Unsubscribe step that leaves
sendCases as it is, given room in sendCases for a subscription that goes from
live to being removed. -/
theorem DeliveringOk.set_next {sendCases : List Ch} {subs : List (feedSub Ch)} {call : SendCall Ch}
    {cases nsent k t : Nat} {sub : feedSub Ch} {new : SubStatus} (ok : DeliveringOk sendCases subs call cases nsent)
    (found : subs[k]? = some sub) (next : SubStatus.Next t sub.status new) (calledBefore : call.calledAt < t)
    (room : ∀ c, subs.countP (feedSub.LiveSince c call.calledAt) +
      (subs.set k { sub with status := new }).countP (feedSub.Removing c) ≤
        sendCases.count c + (if sub.LiveSince c call.calledAt then 1 else 0)) :
    DeliveringOk sendCases (subs.set k { sub with status := new }) call cases nsent where
  bounded := ok.bounded
  counted := ok.counted
  inactive := ok.inactive
  upper c := by
    rw [keptAfter_set_next found next calledBefore]
    exact ok.upper c
  lower c := by
    have since := liveSince_set_next found next c call.calledAt
    have roomFor := room c
    omega

theorem PhaseOk.set_next {sendCases : List Ch} {subs : List (feedSub Ch)} {call : SendCall Ch} {phase : SendPhase}
    (ok : PhaseOk sendCases subs call phase) {k t : Nat} {sub : feedSub Ch} {new : SubStatus}
    (found : subs[k]? = some sub) (next : SubStatus.Next t sub.status new) (calledBefore : call.calledAt < t)
    (phaseBefore : phase.Before t)
    (room : ∀ cases nsent, phase = .delivering cases nsent → ∀ c, subs.countP (feedSub.LiveSince c call.calledAt) +
      (subs.set k { sub with status := new }).countP (feedSub.Removing c) ≤
        sendCases.count c + (if sub.LiveSince c call.calledAt then 1 else 0)) :
    PhaseOk sendCases (subs.set k { sub with status := new }) call phase := by
  cases phase with
  | waiting => exact ok
  | locked => exact ok
  | delivering cases nsent => exact DeliveringOk.set_next ok found next calledBefore (room cases nsent rfl)
  | returned nsent returnedAt => exact ReturnedOk.set_next ok found next calledBefore phaseBefore

/-- When Unsubscribe finds no case in the inbox, the subscription's case is in
sendCases, so a delivering Send has room for it among the ones being removed. -/
theorem Feed.Inv.room_toSelect (inv : f.Inv) {k : Nat} {sub : feedSub Ch} (found : f.subs[k]? = some sub)
    (live : sub.status = .live) (absent : sub.channel ∉ f.inbox) {since : Nat}
    (lower : ∀ c, f.subs.countP (feedSub.LiveSince c since) + f.subs.countP (feedSub.Removing c) ≤ f.sendCases.count c)
    (c : Ch) :
    f.subs.countP (feedSub.LiveSince c since) + (f.subs.set k { sub with status := .removing f.time }).countP
      (feedSub.Removing c) ≤ f.sendCases.count c + (if sub.LiveSince c since then 1 else 0) := by
  rw [(countP_removing_set found live c f.time).2]
  have lowered := lower c
  by_cases same : sub.channel = c
  · subst same
    cases sinceHolds : sub.LiveSince sub.channel since
    · -- the subscription is live but subscribed since: the live ones outnumber those live since
      have outnumbered := countP_add_one_le (fun other _ holds => by
          simp only [feedSub.LiveSince, Bool.and_eq_true] at holds
          exact holds.1) (List.mem_of_getElem? found)
        (show sub.Live sub.channel = true by simp [feedSub.Live, live]) sinceHolds
      have balanced := inv.balance sub.channel
      have split := feedSub.countP_held sub.channel f.subs
      rw [List.count_eq_zero_of_not_mem absent] at balanced
      simp only [if_true, Bool.false_eq_true, if_false]
      omega
    · simp only [if_true]
      omega
  · simp only [same, if_false]
    omega

theorem Feed.Inv.Unsubscribe (inv : f.Inv) {k : Nat} (stepped : f.Unsubscribe k = some (.ok f')) : f'.Inv := by
  obtain ⟨sub, found, live, ⟨inbox, dropped, rfl⟩ | ⟨absent, rfl⟩⟩ := Unsubscribe_eq_ok stepped
  · -- the case was in the inbox: it is deleted, and the subscription is removed
    have next : SubStatus.Next f.time sub.status (.removed f.time f.time) := live ▸ .fromInbox
    refine ⟨inv.free, inv.single, fun c => ?_, fun c => ?_, inv.subsBefore_set found next, fun j call atJ => ?_⟩
    · have balanced := inv.balance c
      have held := (countP_held_set found live c f.time).1
      have fromInbox := dropped c
      simp only
      omega
    · rw [(countP_removing_set found live c f.time).1]
      exact inv.covered c
    · have ok := inv.sends j call atJ
      refine ⟨Nat.lt_succ_of_lt ok.calledBefore, ok.phaseBefore.mono (Nat.le_succ _),
        PhaseOk.set_next ok.phase found next ok.calledBefore ok.phaseBefore ?_⟩
      intro cases nsent delivering c
      have lower := (show DeliveringOk f.sendCases f.subs call cases nsent by
        have := ok.phase
        rw [delivering] at this
        exact this).lower c
      rw [(countP_removing_set found live c f.time).1]
      omega
  · -- no case in the inbox: remove goes on to its select
    have next : SubStatus.Next f.time sub.status (.removing f.time) := live ▸ .toSelect
    refine ⟨inv.free, inv.single, fun c => ?_, fun c => ?_, inv.subsBefore_set found next, fun j call atJ => ?_⟩
    · rw [(countP_held_set found live c f.time).2]
      exact inv.balance c
    · -- none of the channel's cases is in the inbox, so the subscription's case is in sendCases
      rw [(countP_removing_set found live c f.time).2]
      have covered := inv.covered c
      by_cases same : sub.channel = c
      · subst same
        have balanced := inv.balance sub.channel
        have split := feedSub.countP_held sub.channel f.subs
        have liveOne : 0 < f.subs.countP (feedSub.Live sub.channel) :=
          List.countP_pos_iff.mpr ⟨sub, List.mem_of_getElem? found, by simp [feedSub.Live, live]⟩
        rw [List.count_eq_zero_of_not_mem absent] at balanced
        simp only [if_true]
        omega
      · simp only [same, if_false]
        omega
    · have ok := inv.sends j call atJ
      refine ⟨Nat.lt_succ_of_lt ok.calledBefore, ok.phaseBefore.mono (Nat.le_succ _),
        PhaseOk.set_next ok.phase found next ok.calledBefore ok.phaseBefore ?_⟩
      intro cases nsent delivering
      exact inv.room_toSelect found live absent (show DeliveringOk f.sendCases f.subs call cases nsent by
        have := ok.phase
        rw [delivering] at this
        exact this).lower

/-- Every count of the cases is one less for the deleted channel, and so is
every count of the subscriptions: the one removed was being removed. -/
theorem Feed.Inv.removed (inv : f.Inv) {k : Nat} {sub : feedSub Ch} {calledAt : Nat} (found : f.subs[k]? = some sub)
    (removing : sub.status = .removing calledAt) {sendCases : List Ch}
    (deleted : ∀ c, sendCases.count c + (if sub.channel = c then 1 else 0) = f.sendCases.count c) (c : Ch) :
    f.inbox.count c + sendCases.count c =
        (f.subs.set k { sub with status := .removed calledAt f.time }).countP (feedSub.Held c) ∧
      (f.subs.set k { sub with status := .removed calledAt f.time }).countP (feedSub.Removing c) ≤ sendCases.count c := by
  obtain ⟨held, gone⟩ := countP_set_fromSelect found removing c f.time
  have balanced := inv.balance c
  have covered := inv.covered c
  have fromCases := deleted c
  constructor <;> omega

/-- The handed-off case leaves sendCases, and the active prefix when it was in it. -/
theorem DeliveringOk.handoff {sendCases sendCases' : List Ch} {subs : List (feedSub Ch)} {call : SendCall Ch}
    {cases cases' nsent k t calledAt : Nat} {sub : feedSub Ch} (ok : DeliveringOk sendCases subs call cases nsent)
    (found : subs[k]? = some sub) (removing : sub.status = .removing calledAt)
    (deleted : caseList.DeletedFrom sub.channel sendCases cases sendCases' cases') (calledBefore : call.calledAt < t) :
    DeliveringOk sendCases' (subs.set k { sub with status := .removed calledAt t })
      { call with phase := .delivering cases' nsent } cases' nsent := by
  have next : SubStatus.Next t sub.status (.removed calledAt t) := removing ▸ .fromSelect calledAt
  refine ⟨deleted.bounded, ok.counted, fun c => Nat.le_trans (deleted.drop_le c) (ok.inactive c), fun c => ?_,
    fun c => ?_⟩
  · rw [keptAfter_set_next found next calledBefore]
    exact Nat.le_trans (Nat.add_le_add_left (deleted.take_le c) _) (ok.upper c)
  · -- the subscription was not live, and it leaves the ones being removed with its case
    have since := liveSince_set_next found next c call.calledAt
    have gone := (countP_set_fromSelect found removing c t).2
    have fromCases := deleted.count c
    have lowered := ok.lower c
    simp only [feedSub.LiveSince, feedSub.Live, removing, reduceCtorEq, decide_false, Bool.and_false,
      Bool.false_and, Bool.false_eq_true, if_false] at since
    simp only
    omega

theorem Feed.Inv.removeHandoff (inv : f.Inv) {k i : Nat} (stepped : f.removeHandoff k i = some (.ok f')) : f'.Inv := by
  obtain ⟨sub, call, calledAt, cases, nsent, sendCases, cases', found, removing, foundCall, delivering, -, deleted, rfl⟩ :=
    removeHandoff_eq_ok stepped
  have next : SubStatus.Next f.time sub.status (.removed calledAt f.time) := removing ▸ .fromSelect calledAt
  have ok := inv.sends i call foundCall
  have delivery : DeliveringOk f.sendCases f.subs call cases nsent := by
    have := ok.phase
    rw [delivering] at this
    exact this
  have holder : f.HoldsLock i := ⟨call, foundCall, by simp [delivering, SendPhase.holdsLock]⟩
  have counts := inv.removed found removing (deleted delivery.bounded).count
  refine ⟨inv.free_set foundCall (by simp [delivering, SendPhase.holdsLock]) rfl rfl,
    inv.single_set foundCall (by simp [delivering, SendPhase.holdsLock]) rfl, fun c => (counts c).1,
    fun c => (counts c).2, inv.subsBefore_set found next, fun j other atJ => ?_⟩
  rcases sends_set_other foundCall rfl atJ with ⟨-, rfl⟩ | ⟨other', old⟩
  · exact ⟨Nat.lt_succ_of_lt ok.calledBefore, trivial,
      delivery.handoff found removing (deleted delivery.bounded) ok.calledBefore⟩
  · have otherOk := inv.sends j other old
    exact ⟨Nat.lt_succ_of_lt otherOk.calledBefore, otherOk.phaseBefore.mono (Nat.le_succ _),
      PhaseOk.set_next_idle otherOk.phase (inv.idle_of_holder holder old other') found next otherOk.calledBefore
        otherOk.phaseBefore⟩

theorem Feed.Inv.removeLocked (inv : f.Inv) {k : Nat} (stepped : f.removeLocked k = some (.ok f')) : f'.Inv := by
  obtain ⟨sub, calledAt, sendCases, found, removing, free, deleted, rfl⟩ := removeLocked_eq_ok stepped
  have next : SubStatus.Next f.time sub.status (.removed calledAt f.time) := removing ▸ .fromSelect calledAt
  have counts := inv.removed found removing deleted
  refine ⟨inv.free, inv.single, fun c => (counts c).1, fun c => (counts c).2, inv.subsBefore_set found next,
    fun j call atJ => ?_⟩
  -- the lock is free: no Send is delivering
  have ok := inv.sends j call atJ
  exact ⟨Nat.lt_succ_of_lt ok.calledBefore, ok.phaseBefore.mono (Nat.le_succ _),
    PhaseOk.set_next_idle ok.phase (inv.idle_of_free free atJ) found next ok.calledBefore ok.phaseBefore⟩

end Unsubscribing

/-! ### Every run -/

namespace Feed

variable {f f' : Feed Ch}

/-- Every step keeps the invariant. -/
theorem Inv.step (inv : f.Inv) {action : Action Ch} (stepped : f.step action = some (.ok f')) : f'.Inv := by
  cases action with
  | subscribe channel =>
    cases stepped
    exact inv.Subscribe channel
  | unsubscribe k => exact inv.Unsubscribe stepped
  | handoff k i => exact inv.removeHandoff stepped
  | removeLocked k => exact inv.removeLocked stepped
  | send =>
    cases stepped
    exact inv.Send
  | acquire i =>
    obtain ⟨g, acquired, ⟨⟩⟩ := Option.map_eq_some_iff.mp stepped
    exact inv.sendAcquire acquired
  | collect i =>
    obtain ⟨g, collected, ⟨⟩⟩ := Option.map_eq_some_iff.mp stepped
    exact inv.sendCollect collected
  | deliver i index =>
    obtain ⟨g, delivered, ⟨⟩⟩ := Option.map_eq_some_iff.mp stepped
    exact inv.sendDeliver delivered
  | release i =>
    obtain ⟨g, returned, ⟨⟩⟩ := Option.map_eq_some_iff.mp stepped
    exact inv.sendReturn returned

/-- Every reachable state keeps the invariant. -/
theorem Reachable.inv (reachable : f.Reachable) : f.Inv := by
  induction reachable with
  | init => exact init_inv
  | step action _ stepped inductionHypothesis => exact inductionHypothesis.step stepped

/-! ### Deliveries to a channel -/

/-- The deliveries Send i made to channel c. -/
def deliveredTo (f : Feed Ch) (i : Nat) (c : Ch) : Nat :=
  match f.sends[i]? with
  | some call => call.delivered.count c
  | none => 0

omit [DecidableEq Ch] in
/-- A step that changes where Send i is, and not what it delivered. -/
theorem sends_set_delivered {i : Nat} {call call' : SendCall Ch} (found : f.sends[i]? = some call)
    (sends : f'.sends = f.sends.set i call') (same : call'.delivered = call.delivered) (j : Nat) :
    (f'.sends[j]?).map SendCall.delivered = (f.sends[j]?).map SendCall.delivered := by
  rw [sends, getElem?_set_of_found found]
  by_cases atI : i = j
  · subst atI
    simp [found, same]
  · simp [atI]

theorem deliveredTo_of_delivered {c : Ch}
    (same : ∀ j : Nat, (f'.sends[j]?).map SendCall.delivered = (f.sends[j]?).map SendCall.delivered)
    (j : Nat) : f'.deliveredTo j c = f.deliveredTo j c := by
  have atJ := same j
  unfold deliveredTo
  cases found : f.sends[j]? <;> cases found' : f'.sends[j]? <;> simp_all

/-- Only a delivery adds to what Send i delivered, and it delivers to a
channel whose case is in sendCases. -/
theorem deliveredTo_step {action : Action Ch} (stepped : f.step action = some (.ok f')) (c : Ch)
    (absent : c ∉ f.sendCases) (j : Nat) : f'.deliveredTo j c = f.deliveredTo j c := by
  cases action with
  | subscribe channel =>
    cases stepped
    rfl
  | unsubscribe k =>
    obtain ⟨sub, -, -, ⟨inbox, -, rfl⟩ | ⟨-, rfl⟩⟩ := Unsubscribe_eq_ok stepped <;> rfl
  | handoff k i =>
    obtain ⟨-, call, -, -, -, -, -, -, -, foundCall, -, -, -, rfl⟩ := removeHandoff_eq_ok stepped
    exact deliveredTo_of_delivered (sends_set_delivered foundCall rfl (by rfl)) j
  | removeLocked k =>
    obtain ⟨-, -, -, -, -, -, -, rfl⟩ := removeLocked_eq_ok stepped
    rfl
  | send =>
    cases stepped
    unfold deliveredTo
    simp only [Feed.Send, List.getElem?_append, List.getElem?_singleton]
    split_ifs <;> simp_all
  | acquire i =>
    obtain ⟨g, acquired, ⟨⟩⟩ := Option.map_eq_some_iff.mp stepped
    obtain ⟨call, found, -, -, rfl⟩ := sendAcquire_eq_some acquired
    exact deliveredTo_of_delivered (sends_set_delivered found rfl (by rfl)) j
  | collect i =>
    obtain ⟨g, collected, ⟨⟩⟩ := Option.map_eq_some_iff.mp stepped
    obtain ⟨call, found, -, rfl⟩ := sendCollect_eq_some collected
    exact deliveredTo_of_delivered (sends_set_delivered found rfl (by rfl)) j
  | deliver i index =>
    obtain ⟨g, delivered, ⟨⟩⟩ := Option.map_eq_some_iff.mp stepped
    obtain ⟨call, cases, nsent, inside, found, -, -, rfl⟩ := sendDeliver_eq_some delivered
    -- the channel delivered to has its case in sendCases, so it is not c
    have other : f.sendCases[index] ≠ c := fun same => absent (same ▸ List.getElem_mem inside)
    unfold deliveredTo
    rw [getElem?_set_of_found found]
    by_cases atI : i = j
    · subst atI
      simp [found, List.count_append, other]
    · simp [atI]
  | release i =>
    obtain ⟨g, returned, ⟨⟩⟩ := Option.map_eq_some_iff.mp stepped
    obtain ⟨call, -, found, -, rfl⟩ := sendReturn_eq_some returned
    exact deliveredTo_of_delivered (sends_set_delivered found rfl (by rfl)) j

/-- A subscription being removed has its case in sendCases. -/
theorem Inv.present (inv : f.Inv) {k : Nat} {sub : feedSub Ch} {calledAt : Nat} (found : f.subs[k]? = some sub)
    (removing : sub.status = .removing calledAt) : sub.channel ∈ f.sendCases := by
  have counted : 0 < f.subs.countP (feedSub.Removing sub.channel) :=
    List.countP_pos_iff.mpr ⟨sub, List.mem_of_getElem? found, by
      simp [feedSub.Removing, removing, SubStatus.unsubscribedAt, SubStatus.removedAt]⟩
  exact List.count_pos_iff.mp (Nat.lt_of_lt_of_le counted (inv.covered sub.channel))

/-- No step panics: a removal finds its case. -/
theorem Inv.step_ne_panic (inv : f.Inv) (action : Action Ch) : f.step action ≠ some .panic := by
  cases action with
  | unsubscribe k => exact Unsubscribe_ne_panic k
  | handoff k i => exact removeHandoff_ne_panic fun _ _ found removing => inv.present found removing
  | removeLocked k => exact removeLocked_ne_panic fun _ _ found removing => inv.present found removing
  | _ => simp [Feed.step]

/-! ### Runs -/

/-- The steps of a list, one after the other, up to the first that cannot be
taken or panics. -/
def run (f : Feed Ch) : List (Action Ch) → Option (Outcome Empty (Feed Ch))
  | [] => some (.ok f)
  | action :: rest =>
    match f.step action with
    | some (.ok f') => f'.run rest
    | other => other

theorem Reachable.run {f : Feed Ch} (reachable : f.Reachable) :
    ∀ (actions : List (Action Ch)) (f' : Feed Ch), f.run actions = some (.ok f') → f'.Reachable := by
  intro actions
  induction actions generalizing f with
  | nil =>
    intro f' ran
    cases ran
    exact reachable
  | cons action rest inductionHypothesis =>
    intro f' ran
    simp only [Feed.run] at ran
    split at ran
    · rename_i g stepped
      exact inductionHypothesis (reachable.step action stepped) f' ran
    · rename_i other notOk
      exact absurd ran (notOk f')

/-! ### What a feed guarantees -/

/-- What a feed guarantees, counted per subscription: a channel subscribed
twice holds two cases. -/
structure Guarantees (f : Feed Ch) : Prop where
  /-- A Send that returned counted its deliveries, and delivered to each
  channel at least once for each of its subscriptions that held throughout the
  Send and at most once for each that held at some point of it. -/
  returned : ∀ (i : Nat) (call : SendCall Ch) (nsent returnedAt : Nat), f.sends[i]? = some call →
    call.phase = .returned nsent returnedAt → nsent = call.delivered.length ∧
      ∀ c, f.subs.countP (feedSub.Throughout c call.calledAt returnedAt) ≤ call.delivered.count c ∧
        call.delivered.count c ≤ f.subs.countP (feedSub.Overlaps c call.calledAt returnedAt)
  /-- A channel whose subscriptions have all been removed receives nothing. -/
  removedReceivesNothing : ∀ c : Ch, (∀ sub ∈ f.subs, sub.channel = c → sub.status.removedAt.isSome) →
    ∀ (action : Action Ch) (f' : Feed Ch), f.step action = some (.ok f') → ∀ i, f'.deliveredTo i c = f.deliveredTo i c
  /-- No step panics. -/
  noPanic : ∀ action : Action Ch, f.step action ≠ some .panic
  /-- An Unsubscribe called while a Send is blocked on its remaining cases
  returns without waiting for the Send: its first step deletes the case from
  the inbox, or it hands its channel to the Send, which goes on delivering. -/
  unsubscribeReturns : ∀ (k i : Nat) (sub : feedSub Ch) (call : SendCall Ch) (cases nsent : Nat),
    f.subs[k]? = some sub → sub.status = .live → f.sends[i]? = some call → call.phase = .delivering cases nsent →
    0 < cases → ∃ f₁, f.step (.unsubscribe k) = some (.ok f₁) ∧
      ((∃ sub₁, f₁.subs[k]? = some sub₁ ∧ sub₁.status.removedAt.isSome) ∨
        ∃ f₂, f₁.step (.handoff k i) = some (.ok f₂) ∧ (∃ sub₂, f₂.subs[k]? = some sub₂ ∧ sub₂.status.removedAt.isSome) ∧
          ∃ call₂ cases₂, f₂.sends[i]? = some call₂ ∧ call₂.phase = .delivering cases₂ nsent)

/-- Every state a feed reaches keeps its guarantees. -/
theorem feed_delivers_once_per_subscription {f : Feed Ch} (reachable : f.Reachable) : f.Guarantees := by
  have inv := reachable.inv
  refine ⟨fun i call nsent returnedAt found returned => ?_, fun c removed action f' stepped => ?_, inv.step_ne_panic,
    fun k i sub call cases nsent foundSub live foundCall delivering nonempty => ?_⟩
  · have ok := (inv.sends i call found).phase
    rw [returned] at ok
    exact ⟨ok.counted, fun c => ⟨ok.lower c, ok.upper c⟩⟩
  · -- no subscription of c holds a case, so sendCases has none
    refine deliveredTo_step stepped c fun member => ?_
    have balanced := inv.balance c
    have present : 0 < f.sendCases.count c := List.count_pos_iff.mpr member
    have noneHeld : f.subs.countP (feedSub.Held c) = 0 := List.countP_eq_zero.mpr fun sub inSubs held => by
      simp only [feedSub.Held, Bool.and_eq_true, decide_eq_true_eq, Option.isNone_iff_eq_none] at held
      have gone := removed sub inSubs held.1
      rw [held.2] at gone
      cases gone
    omega
  · obtain ⟨f₁, unsubscribed, sends, -, removedNow | removingNow⟩ := f.Unsubscribe_of_live foundSub live
    · exact ⟨f₁, unsubscribed, .inl ⟨_, by rw [removedNow, getElem?_set_of_found foundSub, if_pos rfl],
        by simp [SubStatus.removedAt]⟩⟩
    · -- the removal goes on to its select, and the blocked Send takes the channel
      have reachable₁ : f₁.Reachable := reachable.step (.unsubscribe k) unsubscribed
      have found₁ : f₁.subs[k]? = some { sub with status := .removing f.time } := by
        rw [removingNow, getElem?_set_of_found foundSub, if_pos rfl]
      have call₁ : f₁.sends[i]? = some call := by
        rw [sends]
        exact foundCall
      obtain ⟨f₂, handed, subs₂, cases₂, sends₂⟩ :=
        removeHandoff_of_removing found₁ rfl call₁ delivering nonempty (reachable₁.inv.present found₁ rfl)
      exact ⟨f₁, unsubscribed, .inr ⟨f₂, handed,
        ⟨_, by rw [subs₂, getElem?_set_of_found found₁, if_pos rfl], by simp [SubStatus.removedAt]⟩,
        _, cases₂, by rw [sends₂, getElem?_set_of_found call₁, if_pos rfl], rfl⟩⟩

/-- Channel 0 subscribed twice, a Send that delivers to both of its cases, the
first subscription unsubscribed, and a second Send. -/
def twoSends : List (Action Nat) :=
  [.subscribe 0, .subscribe 0, .send, .acquire 0, .collect 0, .deliver 0 0, .deliver 0 0, .release 0,
    .unsubscribe 0, .removeLocked 0, .send, .acquire 1, .collect 1, .deliver 1 0, .release 1]

theorem feed_guarantees_after_two_sends :
    ∃ f : Feed Nat, (init : Feed Nat).run twoSends = some (.ok f) ∧ f.Guarantees :=
  ⟨_, rfl, feed_delivers_once_per_subscription (Reachable.init.run twoSends _ rfl)⟩

/-- Channel 0, subscribed at times 0 and 1, receives the value of the Send
called at 2 twice; the first subscription's Unsubscribe is called at 8 and
returns at 9, and the Send called at 10 still delivers to channel 0. -/
theorem feed_delivers_twice_to_a_channel_subscribed_twice :
    ∃ f : Feed Nat, f.Reachable ∧ f.subs = [⟨0, 0, .removed 8 9⟩, ⟨0, 1, .live⟩] ∧
      f.sends = [⟨2, .returned 2 7, [0, 0]⟩, ⟨10, .returned 1 14, [0]⟩] := by
  have ran : (init : Feed Nat).run twoSends = some (.ok
      { sendLock := true, sendCases := [0], inbox := [], subs := [⟨0, 0, .removed 8 9⟩, ⟨0, 1, .live⟩]
        sends := [⟨2, .returned 2 7, [0, 0]⟩, ⟨10, .returned 1 14, [0]⟩], time := 15 }) := by
    decide
  exact ⟨_, Reachable.init.run twoSends _ ran, rfl, rfl⟩

end Feed

end Meshbox.Event
