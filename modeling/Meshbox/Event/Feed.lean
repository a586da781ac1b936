import Mathlib.Data.List.Perm.Basic
import Meshbox.Library.Outcome

/-
This file models event.Feed, which sends each value to every subscribed
channel, with Subscribe, Unsubscribe and Send running in any interleaving. A
Feed keeps new subscriptions in an inbox under f.mu; Send takes the send lock,
moves the inbox into sendCases, and delivers to the active prefix cases of
sendCases, moving each case it delivered to the end of the prefix. An
Unsubscribe deletes its case from the inbox if it is still there; otherwise it
either hands its channel to the Send in progress over removeSub, and that Send
deletes the case from sendCases, or takes the send lock and deletes the case
itself.

A state is the Feed's fields together with where each call is: a step is one
part of a call that runs without interruption, under f.mu, holding the send
lock, or at one channel operation. A Send's non-blocking TrySend and its select
both deliver to one of its active cases, the one its receiver takes first, so a
step delivers to any of them. Values are not modelled (the cases are what
Send delivers to); nor is the element type check, as all channels here carry
one type. Each step advances a clock, and each subscription and each Send keeps
the times of its own steps and the channels it delivered to: the code keeps
none of these, and they are what the guarantees below are stated in.

The guarantees are per subscription, not per channel: a channel subscribed
twice holds two cases and receives each value twice.
-/

namespace Meshbox.Event

variable {Ch : Type} [DecidableEq Ch]

/-! ### Case lists

A caseList is a list of the channels of select cases. Send keeps the removeSub
case at index 0 of sendCases; it matches no subscriber's channel, and it is
left out here, so that an index here is one less than the code's.
-/

/-- caseList.find: the index of the first case on the channel, or -1. -/
def caseList.find (cs : List Ch) (channel : Ch) : Int :=
  match cs.findIdx? (· == channel) with
  | some index => index
  | none => -1

/-- caseList.delete: append(cs[:index], cs[index+1:]...), which panics for an
index outside the list. -/
def caseList.delete (cs : List Ch) (index : Int) : Option (List Ch) :=
  if 0 ≤ index ∧ index < cs.length then some (cs.eraseIdx index.toNat) else none

/-- caseList.deactivate on the prefix of the first active cases: the case at
index swaps with the last of the prefix, which the prefix then leaves. The
prefix shares its array with sendCases, so the swap is made in sendCases. -/
def caseList.deactivate (cs : List Ch) (active index : Nat) : List Ch :=
  match cs[index]?, cs[active - 1]? with
  | some chosen, some last => (cs.set index last).set (active - 1) chosen
  | _, _ => cs

/-! ### The feed -/

/-- Where the Unsubscribe of a subscription is, with the times of its call and
of its return. errOnce runs remove for the first call only. -/
inductive SubStatus where
  | live
  | removing (calledAt : Nat)
  | removed (calledAt returnedAt : Nat)
  deriving DecidableEq, Repr

/-- The time Unsubscribe was called. -/
def SubStatus.unsubscribedAt : SubStatus → Option Nat
  | .live => none
  | .removing calledAt => some calledAt
  | .removed calledAt _ => some calledAt

/-- The time Unsubscribe returned. -/
def SubStatus.removedAt : SubStatus → Option Nat
  | .removed _ returnedAt => some returnedAt
  | _ => none

/-- feedSub: the channel of a subscription, when Subscribe ran, and how far its
Unsubscribe is. -/
structure feedSub (Ch : Type) where
  channel : Ch
  subscribedAt : Nat
  status : SubStatus
  deriving DecidableEq, Repr

/-- Where a call of Send is: waiting for the send lock, holding it before it
takes the inbox, delivering to its first cases with nsent deliveries made, or
returned. -/
inductive SendPhase where
  | waiting
  | locked
  | delivering (cases nsent : Nat)
  | returned (nsent returnedAt : Nat)
  deriving DecidableEq, Repr

/-- The send lock is held from acquiring it until the return. -/
def SendPhase.holdsLock : SendPhase → Bool
  | .locked | .delivering _ _ => true
  | _ => false

/-- A call of Send: when it was made, where it is, and the channels it
delivered to, in order. -/
structure SendCall (Ch : Type) where
  calledAt : Nat
  phase : SendPhase
  delivered : List Ch
  deriving DecidableEq, Repr

/-- Feed: the send lock (true when its token is in the channel, so that the
lock is free), sendCases, the inbox, and the calls made so far. -/
structure Feed (Ch : Type) where
  sendLock : Bool
  sendCases : List Ch
  inbox : List Ch
  subs : List (feedSub Ch)
  sends : List (SendCall Ch)
  time : Nat
  deriving DecidableEq, Repr

namespace Feed

/-- The zero Feed after init: the lock is free and there are no cases. -/
def init : Feed Ch :=
  { sendLock := true, sendCases := [], inbox := [], subs := [], sends := [], time := 0 }

/-- Subscribe: under f.mu the channel's case goes to the inbox. -/
def Subscribe (f : Feed Ch) (channel : Ch) : Feed Ch :=
  { f with inbox := f.inbox ++ [channel], subs := f.subs ++ [⟨channel, f.time, .live⟩], time := f.time + 1 }

/-- Unsubscribe of subscription k, as far as remove's part under f.mu: a case
for the channel in the inbox is deleted and remove returns; otherwise remove
goes on to its select. -/
def Unsubscribe (f : Feed Ch) (k : Nat) : Option (Outcome Empty (Feed Ch)) :=
  match f.subs[k]? with
  | some sub =>
    if sub.status = .live then
      let index := caseList.find f.inbox sub.channel
      if index ≠ -1 then
        some (match caseList.delete f.inbox index with
          | some inbox =>
            .ok { f with
                  inbox := inbox
                  subs := f.subs.set k { sub with status := .removed f.time f.time }
                  time := f.time + 1 }
          | none => .panic)
      else some (.ok { f with subs := f.subs.set k { sub with status := .removing f.time }, time := f.time + 1 })
    else none
  | none => none

/-- remove's select takes the case f.removeSub <- ch: Send i, blocked in its
own select, receives the channel and deletes its case from sendCases. The
active prefix shrinks when the case was in it. -/
def removeHandoff (f : Feed Ch) (k i : Nat) : Option (Outcome Empty (Feed Ch)) :=
  match f.subs[k]?, f.sends[i]? with
  | some sub, some call =>
    match sub.status, call.phase with
    | .removing calledAt, .delivering cases nsent =>
      if 0 < cases then
        let index := caseList.find f.sendCases sub.channel
        some (match caseList.delete f.sendCases index with
          | some sendCases =>
            .ok { f with
                  sendCases := sendCases
                  subs := f.subs.set k { sub with status := .removed calledAt f.time }
                  sends := f.sends.set i
                    { call with phase := .delivering (if 0 ≤ index ∧ index < cases then cases - 1 else cases) nsent }
                  time := f.time + 1 }
          | none => .panic)
      else none
    | _, _ => none
  | _, _ => none

/-- remove's select takes the case <-f.sendLock: no Send is in progress, and
remove deletes the case from sendCases and gives the lock back. -/
def removeLocked (f : Feed Ch) (k : Nat) : Option (Outcome Empty (Feed Ch)) :=
  match f.subs[k]? with
  | some sub =>
    match sub.status with
    | .removing calledAt =>
      if f.sendLock then
        some (match caseList.delete f.sendCases (caseList.find f.sendCases sub.channel) with
          | some sendCases =>
            .ok { f with
                  sendCases := sendCases
                  subs := f.subs.set k { sub with status := .removed calledAt f.time }
                  time := f.time + 1 }
          | none => .panic)
      else none
    | _ => none
  | none => none

/-- A call of Send, which waits for the send lock. -/
def Send (f : Feed Ch) : Feed Ch :=
  { f with sends := f.sends ++ [⟨f.time, .waiting, []⟩], time := f.time + 1 }

/-- Send i takes the send lock. -/
def sendAcquire (f : Feed Ch) (i : Nat) : Option (Feed Ch) :=
  match f.sends[i]? with
  | some call =>
    if call.phase = .waiting ∧ f.sendLock = true then
      some { f with sendLock := false, sends := f.sends.set i { call with phase := .locked }, time := f.time + 1 }
    else none
  | none => none

/-- Send i, under f.mu, appends the inbox to sendCases and empties it; all of
sendCases is active. -/
def sendCollect (f : Feed Ch) (i : Nat) : Option (Feed Ch) :=
  match f.sends[i]? with
  | some call =>
    if call.phase = .locked then
      let sendCases := f.sendCases ++ f.inbox
      some { f with
             sendCases := sendCases
             inbox := []
             sends := f.sends.set i { call with phase := .delivering sendCases.length 0 }
             time := f.time + 1 }
    else none
  | none => none

/-- Send i delivers to its active case at index, by TrySend or by its select,
counts it and deactivates it. -/
def sendDeliver (f : Feed Ch) (i index : Nat) : Option (Feed Ch) :=
  match f.sends[i]? with
  | some call =>
    match call.phase, f.sendCases[index]? with
    | .delivering cases nsent, some channel =>
      if index < cases then
        some { f with
               sendCases := caseList.deactivate f.sendCases cases index
               sends := f.sends.set i
                 { call with phase := .delivering (cases - 1) (nsent + 1), delivered := call.delivered ++ [channel] }
               time := f.time + 1 }
      else none
    | _, _ => none
  | none => none

/-- Send i has no active case left: it hands the send lock back and returns nsent. -/
def sendReturn (f : Feed Ch) (i : Nat) : Option (Feed Ch) :=
  match f.sends[i]? with
  | some call =>
    match call.phase with
    | .delivering 0 nsent =>
      some { f with
             sendLock := true
             sends := f.sends.set i { call with phase := .returned nsent f.time }
             time := f.time + 1 }
    | _ => none
  | none => none

end Feed

/-- The steps of the calls on a feed. -/
inductive Action (Ch : Type) where
  | subscribe (channel : Ch)
  | unsubscribe (k : Nat)
  | handoff (k i : Nat)
  | removeLocked (k : Nat)
  | send
  | acquire (i : Nat)
  | collect (i : Nat)
  | deliver (i index : Nat)
  | release (i : Nat)
  deriving DecidableEq, Repr

namespace Feed

/-- One step: none where the step cannot be taken, a panic where it panics. -/
def step (f : Feed Ch) : Action Ch → Option (Outcome Empty (Feed Ch))
  | .subscribe channel => some (.ok (f.Subscribe channel))
  | .unsubscribe k => f.Unsubscribe k
  | .handoff k i => f.removeHandoff k i
  | .removeLocked k => f.removeLocked k
  | .send => some (.ok f.Send)
  | .acquire i => (f.sendAcquire i).map .ok
  | .collect i => (f.sendCollect i).map .ok
  | .deliver i index => (f.sendDeliver i index).map .ok
  | .release i => (f.sendReturn i).map .ok

/-- The states a feed reaches from init. A panic ends the program. -/
inductive Reachable : Feed Ch → Prop where
  | init : Reachable init
  | step {f f' : Feed Ch} (action : Action Ch) : Reachable f → f.step action = some (.ok f') → Reachable f'

end Feed

/-! ### What the case-list operations do to the counts of channels -/

namespace caseList

theorem find_of_not_mem {cs : List Ch} {channel : Ch} (absent : channel ∉ cs) : find cs channel = -1 := by
  have none : cs.findIdx? (· == channel) = none :=
    List.findIdx?_eq_none_iff.mpr fun x member => by
      simp only [beq_eq_false_iff_ne]
      rintro rfl
      exact absent member
  simp [find, none]

theorem find_of_mem {cs : List Ch} {channel : Ch} (member : channel ∈ cs) :
    ∃ index : Nat, ∃ inside : index < cs.length, find cs channel = index ∧ cs[index] = channel := by
  cases found : cs.findIdx? (· == channel) with
  | none =>
    have absent := List.findIdx?_eq_none_iff.mp found channel member
    simp at absent
  | some index =>
    obtain ⟨inside, first, -⟩ := List.findIdx?_eq_some_iff_getElem.mp found
    exact ⟨index, inside, by simp [find, found], by simpa using first⟩

omit [DecidableEq Ch] in
theorem delete_of_lt {cs : List Ch} {index : Nat} (inside : index < cs.length) :
    delete cs index = some (cs.eraseIdx index) := by
  simp [delete, inside]

omit [DecidableEq Ch] in
theorem delete_neg_one (cs : List Ch) : delete cs (-1) = none := by
  simp [delete]

/-- Deleting a case removes one case on its channel. -/
theorem count_eraseIdx {cs : List Ch} {index : Nat} (inside : index < cs.length) (c : Ch) :
    (cs.eraseIdx index).count c + (if cs[index] = c then 1 else 0) = cs.count c := by
  rw [← (List.getElem_cons_eraseIdx_perm inside).count_eq c, List.count_cons]
  simp [beq_iff_eq]

/-- The first active cases of cs are active in cs', and the others inactive. -/
structure DeletedFrom (channel : Ch) (cs : List Ch) (active : Nat) (cs' : List Ch) (active' : Nat) : Prop where
  count : ∀ c, cs'.count c + (if channel = c then 1 else 0) = cs.count c
  bounded : active' ≤ cs'.length
  take_le : ∀ c, (cs'.take active').count c ≤ (cs.take active).count c
  drop_le : ∀ c, (cs'.drop active').count c ≤ (cs.drop active).count c

/-- Deleting a case at index from sendCases with its first active cases
active: the prefix loses the case when it held it. -/
theorem deletedFrom_eraseIdx {cs : List Ch} {index active : Nat} (inside : index < cs.length)
    (bounded : active ≤ cs.length) :
    DeletedFrom cs[index] cs active (cs.eraseIdx index) (if index < active then active - 1 else active) := by
  have split : cs = cs.take active ++ cs.drop active := (List.take_append_drop active cs).symm
  have prefixLength : (cs.take active).length = active := by simp [bounded]
  have shortened : (cs.eraseIdx index).length = cs.length - 1 := List.length_eraseIdx_of_lt inside
  by_cases inPrefix : index < active
  · -- the case was active: the prefix is the old one less the case, and the rest is unchanged
    have erased : cs.eraseIdx index = (cs.take active).eraseIdx index ++ cs.drop active := by
      conv_lhs => rw [split]
      exact List.eraseIdx_append_of_lt_length (by omega) _
    have shorter : ((cs.take active).eraseIdx index).length = active - 1 := by
      rw [List.length_eraseIdx_of_lt (by omega), prefixLength]
    refine ⟨count_eraseIdx inside, ?_, fun c => ?_, fun c => ?_⟩
    · rw [if_pos inPrefix]
      omega
    · rw [if_pos inPrefix, erased, List.take_left' shorter]
      exact (List.eraseIdx_sublist _ _).count_le c
    · exact Nat.le_of_eq (by rw [if_pos inPrefix, erased, List.drop_left' shorter])
  · -- the case was past the prefix: the prefix is unchanged
    have erased : cs.eraseIdx index = cs.take active ++ (cs.drop active).eraseIdx (index - active) := by
      conv_lhs => rw [split]
      rw [List.eraseIdx_append_of_length_le (by omega), prefixLength]
    refine ⟨count_eraseIdx inside, ?_, fun c => ?_, fun c => ?_⟩
    · rw [if_neg inPrefix]
      omega
    · exact Nat.le_of_eq (by rw [if_neg inPrefix, erased, List.take_left' prefixLength])
    · rw [if_neg inPrefix, erased, List.drop_left' prefixLength]
      exact (List.eraseIdx_sublist _ _).count_le c

omit [DecidableEq Ch] in
/-- Deactivating the active case at index moves it just past the new prefix. -/
theorem deactivate_eq {cs : List Ch} {active index : Nat} (chosen : index < active) (bounded : active ≤ cs.length) :
    deactivate cs active index = (cs.set index cs[active - 1]).set (active - 1) cs[index] := by
  simp [deactivate, List.getElem?_eq_getElem (show index < cs.length by omega),
    List.getElem?_eq_getElem (show active - 1 < cs.length by omega)]

omit [DecidableEq Ch] in
theorem length_deactivate (cs : List Ch) (active index : Nat) : (deactivate cs active index).length = cs.length := by
  unfold deactivate
  split <;> simp

theorem count_deactivate {cs : List Ch} {active index : Nat} (chosen : index < active) (bounded : active ≤ cs.length)
    (c : Ch) : (deactivate cs active index).count c = cs.count c := by
  rw [deactivate_eq chosen bounded]
  by_cases same : index = active - 1
  · simp [same]
  · have indexInside : index < cs.length := by omega
    have lastInside : active - 1 < (cs.set index cs[active - 1]).length := by simp; omega
    -- the two cases trade places; a channel present is counted at least once
    have present : (if cs[index] = c then 1 else 0) ≤ cs.count c := by
      split_ifs with atIndex
      · exact List.count_pos_iff.mpr (atIndex ▸ List.getElem_mem indexInside)
      · exact Nat.zero_le _
    rw [List.count_set lastInside, List.count_set indexInside]
    simp only [List.getElem_set, if_neg same, beq_iff_eq]
    split_ifs at present ⊢ <;> omega

omit [DecidableEq Ch] in
theorem drop_deactivate {cs : List Ch} {active index : Nat} (chosen : index < active) (bounded : active ≤ cs.length) :
    (deactivate cs active index).drop (active - 1) = cs[index] :: cs.drop active := by
  rw [deactivate_eq chosen bounded, List.drop_set, if_neg (by omega), Nat.sub_self,
    List.drop_eq_getElem_cons (by simp; omega), List.set_cons_zero, List.drop_set_of_lt (by omega),
    Nat.sub_add_cancel (by omega)]

/-- Deactivating moves one case on the chosen channel from the prefix to the
cases after it. -/
theorem deactivate_counts {cs : List Ch} {active index : Nat} (chosen : index < active) (bounded : active ≤ cs.length)
    (c : Ch) :
    ((deactivate cs active index).take (active - 1)).count c + (if cs[index] = c then 1 else 0) =
        (cs.take active).count c ∧
      ((deactivate cs active index).drop (active - 1)).count c =
        (cs.drop active).count c + (if cs[index] = c then 1 else 0) := by
  have whole := count_deactivate chosen bounded c
  have after : ((deactivate cs active index).drop (active - 1)).count c =
      (cs.drop active).count c + (if cs[index] = c then 1 else 0) := by
    rw [drop_deactivate chosen bounded, List.count_cons]
    simp [beq_iff_eq]
  refine ⟨?_, after⟩
  have splitNew := congrArg (List.count c) (List.take_append_drop (active - 1) (deactivate cs active index))
  have splitOld := congrArg (List.count c) (List.take_append_drop active cs)
  rw [List.count_append] at splitNew splitOld
  omega

end caseList

/-! ### What each step does -/

namespace Feed

variable {f f' : Feed Ch}

theorem Unsubscribe_eq_ok {k : Nat} (stepped : f.Unsubscribe k = some (.ok f')) :
    ∃ sub, f.subs[k]? = some sub ∧ sub.status = .live ∧
      ((∃ inbox, (∀ c, inbox.count c + (if sub.channel = c then 1 else 0) = f.inbox.count c) ∧
          f' = { f with
                 inbox := inbox
                 subs := f.subs.set k { sub with status := .removed f.time f.time }
                 time := f.time + 1 }) ∨
        (sub.channel ∉ f.inbox ∧
          f' = { f with subs := f.subs.set k { sub with status := .removing f.time }, time := f.time + 1 })) := by
  unfold Unsubscribe at stepped
  split at stepped
  · rename_i sub found
    dsimp only at stepped
    split_ifs at stepped with live inInbox
    · refine ⟨sub, found, live, .inl ?_⟩
      have member : sub.channel ∈ f.inbox := by
        by_contra absent
        exact inInbox (caseList.find_of_not_mem absent)
      obtain ⟨index, inside, atIndex, channelAt⟩ := caseList.find_of_mem member
      rw [atIndex, caseList.delete_of_lt inside] at stepped
      refine ⟨f.inbox.eraseIdx index, fun c => ?_, (Outcome.ok.inj (Option.some.inj stepped)).symm⟩
      rw [← channelAt]
      exact caseList.count_eraseIdx inside c
    · refine ⟨sub, found, live, .inr ⟨fun member => ?_, (Outcome.ok.inj (Option.some.inj stepped)).symm⟩⟩
      obtain ⟨index, -, atIndex, -⟩ := caseList.find_of_mem member
      exact inInbox (by rw [atIndex]; omega)
  · cases stepped

theorem Unsubscribe_ne_panic (k : Nat) : f.Unsubscribe k ≠ some .panic := by
  unfold Unsubscribe
  split
  · rename_i sub _
    dsimp only
    split_ifs with live inInbox
    · have member : sub.channel ∈ f.inbox := by
        by_contra absent
        exact inInbox (caseList.find_of_not_mem absent)
      obtain ⟨index, inside, atIndex, -⟩ := caseList.find_of_mem member
      simp [atIndex, caseList.delete_of_lt inside]
    · simp
    · simp
  · simp

theorem removeHandoff_eq_ok {k i : Nat} (stepped : f.removeHandoff k i = some (.ok f')) :
    ∃ sub call calledAt cases nsent sendCases cases', f.subs[k]? = some sub ∧ sub.status = .removing calledAt ∧
      f.sends[i]? = some call ∧ call.phase = .delivering cases nsent ∧ 0 < cases ∧
      (cases ≤ f.sendCases.length → caseList.DeletedFrom sub.channel f.sendCases cases sendCases cases') ∧
      f' = { f with
             sendCases := sendCases
             subs := f.subs.set k { sub with status := .removed calledAt f.time }
             sends := f.sends.set i { call with phase := .delivering cases' nsent }
             time := f.time + 1 } := by
  unfold removeHandoff at stepped
  split at stepped
  · rename_i sub call foundSub foundCall
    split at stepped
    · rename_i calledAt cases nsent removing delivering
      split_ifs at stepped with nonempty
      dsimp only at stepped
      split at stepped
      · rename_i sendCases deleted
        by_cases member : sub.channel ∈ f.sendCases
        · obtain ⟨index, inside, atIndex, channelAt⟩ := caseList.find_of_mem member
          rw [atIndex, caseList.delete_of_lt inside, Option.some.injEq] at deleted
          subst deleted
          refine ⟨sub, call, calledAt, cases, nsent, f.sendCases.eraseIdx index, if index < cases then cases - 1 else cases,
            foundSub, removing,
            foundCall, delivering, nonempty, fun bounded => ?_, ?_⟩
          · rw [← channelAt]
            exact caseList.deletedFrom_eraseIdx inside bounded
          · have inPrefix : (0 ≤ (index : Int) ∧ (index : Int) < cases) ↔ index < cases := by omega
            rw [atIndex] at stepped
            simp only [inPrefix] at stepped
            exact (Outcome.ok.inj (Option.some.inj stepped)).symm
        · rw [caseList.find_of_not_mem member, caseList.delete_neg_one] at deleted
          cases deleted
      · cases stepped
    · cases stepped
  · cases stepped

theorem removeHandoff_ne_panic {k i : Nat}
    (present : ∀ sub calledAt, f.subs[k]? = some sub → sub.status = .removing calledAt → sub.channel ∈ f.sendCases) :
    f.removeHandoff k i ≠ some .panic := by
  unfold removeHandoff
  split
  · rename_i sub call foundSub _
    split
    · rename_i calledAt _ _ removing _
      split_ifs
      · obtain ⟨index, inside, atIndex, -⟩ := caseList.find_of_mem (present sub calledAt foundSub removing)
        simp [atIndex, caseList.delete_of_lt inside]
      · simp
    · simp
  · simp

theorem removeLocked_eq_ok {k : Nat} (stepped : f.removeLocked k = some (.ok f')) :
    ∃ sub calledAt sendCases, f.subs[k]? = some sub ∧ sub.status = .removing calledAt ∧ f.sendLock = true ∧
      (∀ c, sendCases.count c + (if sub.channel = c then 1 else 0) = f.sendCases.count c) ∧
      f' = { f with
             sendCases := sendCases
             subs := f.subs.set k { sub with status := .removed calledAt f.time }
             time := f.time + 1 } := by
  unfold removeLocked at stepped
  split at stepped
  · rename_i sub foundSub
    split at stepped
    · rename_i calledAt removing
      split_ifs at stepped with free
      split at stepped
      · rename_i sendCases deleted
        by_cases member : sub.channel ∈ f.sendCases
        · obtain ⟨index, inside, atIndex, channelAt⟩ := caseList.find_of_mem member
          rw [atIndex, caseList.delete_of_lt inside, Option.some.injEq] at deleted
          subst deleted
          refine ⟨sub, calledAt, _, foundSub, removing, free, fun c => ?_, (Outcome.ok.inj (Option.some.inj stepped)).symm⟩
          rw [← channelAt]
          exact caseList.count_eraseIdx inside c
        · rw [caseList.find_of_not_mem member, caseList.delete_neg_one] at deleted
          cases deleted
      · cases stepped
    · cases stepped
  · cases stepped

theorem removeLocked_ne_panic {k : Nat}
    (present : ∀ sub calledAt, f.subs[k]? = some sub → sub.status = .removing calledAt → sub.channel ∈ f.sendCases) :
    f.removeLocked k ≠ some .panic := by
  unfold removeLocked
  split
  · rename_i sub foundSub
    split
    · rename_i calledAt removing
      split_ifs
      · obtain ⟨index, inside, atIndex, -⟩ := caseList.find_of_mem (present sub calledAt foundSub removing)
        simp [atIndex, caseList.delete_of_lt inside]
      · simp
    · simp
  · simp

omit [DecidableEq Ch] in
theorem sendAcquire_eq_some {i : Nat} (stepped : f.sendAcquire i = some f') :
    ∃ call, f.sends[i]? = some call ∧ call.phase = .waiting ∧ f.sendLock = true ∧
      f' = { f with sendLock := false, sends := f.sends.set i { call with phase := .locked }, time := f.time + 1 } := by
  unfold sendAcquire at stepped
  split at stepped
  · rename_i call found
    split_ifs at stepped with ready
    exact ⟨call, found, ready.1, ready.2, (Option.some.inj stepped).symm⟩
  · cases stepped

omit [DecidableEq Ch] in
theorem sendCollect_eq_some {i : Nat} (stepped : f.sendCollect i = some f') :
    ∃ call, f.sends[i]? = some call ∧ call.phase = .locked ∧
      f' = { f with
             sendCases := f.sendCases ++ f.inbox
             inbox := []
             sends := f.sends.set i { call with phase := .delivering (f.sendCases ++ f.inbox).length 0 }
             time := f.time + 1 } := by
  unfold sendCollect at stepped
  split at stepped
  · rename_i call found
    split_ifs at stepped with locked
    exact ⟨call, found, locked, (Option.some.inj stepped).symm⟩
  · cases stepped

omit [DecidableEq Ch] in
theorem sendDeliver_eq_some {i index : Nat} (stepped : f.sendDeliver i index = some f') :
    ∃ call cases nsent, ∃ inside : index < f.sendCases.length, f.sends[i]? = some call ∧
      call.phase = .delivering cases nsent ∧ index < cases ∧
      f' = { f with
             sendCases := caseList.deactivate f.sendCases cases index
             sends := f.sends.set i
               { call with phase := .delivering (cases - 1) (nsent + 1), delivered := call.delivered ++ [f.sendCases[index]] }
             time := f.time + 1 } := by
  unfold sendDeliver at stepped
  split at stepped
  · rename_i call found
    split at stepped
    · rename_i cases nsent channel delivering atIndex
      split_ifs at stepped with chosen
      obtain ⟨inside, channelAt⟩ := List.getElem?_eq_some_iff.mp atIndex
      refine ⟨call, cases, nsent, inside, found, delivering, chosen, ?_⟩
      rw [channelAt]
      exact (Option.some.inj stepped).symm
    · cases stepped
  · cases stepped

omit [DecidableEq Ch] in
theorem sendReturn_eq_some {i : Nat} (stepped : f.sendReturn i = some f') :
    ∃ call nsent, f.sends[i]? = some call ∧ call.phase = .delivering 0 nsent ∧
      f' = { f with
             sendLock := true
             sends := f.sends.set i { call with phase := .returned nsent f.time }
             time := f.time + 1 } := by
  unfold sendReturn at stepped
  split at stepped
  · rename_i call found
    split at stepped
    · rename_i nsent delivering
      exact ⟨call, nsent, found, delivering, (Option.some.inj stepped).symm⟩
    · cases stepped
  · cases stepped

/-! ### Steps that can always be taken -/

/-- An Unsubscribe of a live subscription always takes its first step. -/
theorem Unsubscribe_of_live {k : Nat} {sub : feedSub Ch} (found : f.subs[k]? = some sub) (live : sub.status = .live) :
    ∃ f', f.Unsubscribe k = some (.ok f') ∧ f'.sends = f.sends ∧ f'.sendCases = f.sendCases ∧
      (f'.subs = f.subs.set k { sub with status := .removed f.time f.time } ∨
        f'.subs = f.subs.set k { sub with status := .removing f.time }) := by
  unfold Unsubscribe
  simp only [found, live, if_true]
  by_cases member : sub.channel ∈ f.inbox
  · obtain ⟨index, inside, atIndex, -⟩ := caseList.find_of_mem member
    simp only [atIndex, caseList.delete_of_lt inside]
    exact ⟨_, if_pos (by omega), rfl, rfl, .inl rfl⟩
  · simp only [caseList.find_of_not_mem member, ne_eq, not_true_eq_false, if_false]
    exact ⟨_, rfl, rfl, rfl, .inr rfl⟩

/-- A removal in progress can hand its channel to a Send blocked in its select
whenever the channel's case is in sendCases. -/
theorem removeHandoff_of_removing {k i : Nat} {sub : feedSub Ch} {call : SendCall Ch} {calledAt cases nsent : Nat}
    (foundSub : f.subs[k]? = some sub) (removing : sub.status = .removing calledAt) (foundCall : f.sends[i]? = some call)
    (delivering : call.phase = .delivering cases nsent) (nonempty : 0 < cases) (present : sub.channel ∈ f.sendCases) :
    ∃ f', f.removeHandoff k i = some (.ok f') ∧ f'.subs = f.subs.set k { sub with status := .removed calledAt f.time } ∧
      ∃ cases', f'.sends = f.sends.set i { call with phase := .delivering cases' nsent } := by
  obtain ⟨index, inside, atIndex, -⟩ := caseList.find_of_mem present
  unfold removeHandoff
  simp only [foundSub, foundCall, removing, delivering, if_pos nonempty, atIndex, caseList.delete_of_lt inside]
  exact ⟨_, rfl, rfl, _, rfl⟩

end Feed

end Meshbox.Event
