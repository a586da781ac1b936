import Mathlib.Data.UInt
import Meshbox.Library.GoMap

/-
This file models the flow control of les/flowcontrol and the check of the
server's message handler. A server announces a buffer limit and a minimum
recharge rate. For each client it keeps a buffer value (ClientNode) that
requests drain and time recharges, and the client keeps an estimate of it
(ServerNode) that tells it when it may send. Both recharge by MinRecharge per
millisecond, capped at the limit, in uint64 arithmetic.

CanSend compares the estimate with the cost plus a margin, capped at the limit,
and the handler admits a request whose cost, capped at the limit, is at most the
buffer value. The client's costs come from GetRequestCost, capped at the limit
too. The estimate counts on the recharge from the time the client sends a
request; the server takes the cost when the request arrives, and a full buffer
has had no room for the recharge of the time between. So the estimate can stand
above the server's value, and a request that CanSend lets go is refused.

The ClientManager, which schedules the requests of all clients, is not
modelled: what its accept and processed return enters as arguments.
-/

namespace Meshbox.Les

/-- mclock.AbsTime: a monotonic time in nanoseconds, a Go int64. -/
abbrev AbsTime := Int64

/-- fcTimeConst: time.Millisecond, in nanoseconds. -/
def fcTimeConst : UInt64 := 1000000

/-- safetyMargin: time.Millisecond, added to the cost CanSend checks. -/
def safetyMargin : UInt64 := 1000000

structure ServerParams where
  BufLimit : UInt64
  MinRecharge : UInt64
  deriving DecidableEq, Repr

/-! ### The recharge both sides make -/

/-- The new value of recalcBV and recalcBLE: MinRecharge per millisecond since
lastTime (none if the clock went back), capped at BufLimit. -/
def recharge (params : ServerParams) (value : UInt64) (lastTime time : AbsTime) : UInt64 :=
  let dt : UInt64 := if time < lastTime then 0 else (time - lastTime).toUInt64
  let value := value + params.MinRecharge * dt / fcTimeConst
  if value > params.BufLimit then params.BufLimit else value

/-- A value capped at a limit is at most the limit. -/
theorem cap_le (limit value : UInt64) : (if value > limit then limit else value) ≤ limit := by
  split
  · exact UInt64.le_refl _
  · exact UInt64.not_lt.mp ‹_›

/-- Taking more than a full buffer holds wraps to 2^64 less the excess, which
is above the limit. -/
theorem lt_sub_of_lt (limit cost : UInt64) (dear : limit < cost) : limit < limit - cost := by
  rw [UInt64.lt_iff_toNat_lt] at dear ⊢
  rw [UInt64.toNat_sub]
  have costBound := cost.toNat_lt
  rw [Nat.mod_eq_of_lt (by omega)]
  omega

theorem recharge_le (params : ServerParams) (value : UInt64) (lastTime time : AbsTime) :
    recharge params value lastTime time ≤ params.BufLimit :=
  cap_le _ _

/-- At the time of the last recharge nothing is added: the value is only capped. -/
theorem recharge_same (params : ServerParams) (value : UInt64) (time : AbsTime) :
    recharge params value time time = if value > params.BufLimit then params.BufLimit else value := by
  have noTime : Int64.toUInt64 0 = 0 := rfl
  simp [recharge, noTime]

/-! ### The server's node for one client -/

/-- ClientNode: the server's account of one client's buffer. -/
structure ClientNode where
  params : ServerParams
  bufValue : UInt64
  lastTime : AbsTime
  deriving DecidableEq, Repr

def NewClientNode (params : ServerParams) (now : AbsTime) : ClientNode :=
  { params, bufValue := params.BufLimit, lastTime := now }

namespace ClientNode

def recalcBV (peer : ClientNode) (time : AbsTime) : ClientNode :=
  { peer with bufValue := recharge peer.params peer.bufValue peer.lastTime time, lastTime := time }

/-- AcceptRequest at time now: the buffer value after recharging, and what the
manager's accept answered. -/
def AcceptRequest (peer : ClientNode) (now : AbsTime) (accepted : Bool) : (UInt64 × Bool) × ClientNode :=
  let peer := peer.recalcBV now
  ((peer.bufValue, accepted), peer)

/-- RequestProcessed at time now, with the manager's processed returning
rcValue and rcost: the cost is taken from the recharged value, and the value
is raised to BufLimit - rcValue if that is more. -/
def RequestProcessed (peer : ClientNode) (now : AbsTime) (cost rcValue rcost : UInt64) :
    (UInt64 × UInt64) × ClientNode :=
  let peer := peer.recalcBV now
  let peer := ({ peer with bufValue := peer.bufValue - cost } : ClientNode).recalcBV now
  let peer :=
    if rcValue < peer.params.BufLimit ∧ peer.params.BufLimit - rcValue > peer.bufValue then
      { peer with bufValue := peer.params.BufLimit - rcValue }
    else peer
  ((peer.bufValue, rcost), peer)

@[simp] theorem params_recalcBV (peer : ClientNode) (time : AbsTime) : (peer.recalcBV time).params = peer.params :=
  rfl

theorem recalcBV_le (peer : ClientNode) (time : AbsTime) : (peer.recalcBV time).bufValue ≤ peer.params.BufLimit :=
  recharge_le _ _ _ _

/-- The value RequestProcessed returns: the cost is taken from the recharged
value and the difference capped, unless BufLimit - rcValue is more. -/
theorem RequestProcessed_bv (peer : ClientNode) (now : AbsTime) (cost rcValue rcost : UInt64) :
    (peer.RequestProcessed now cost rcValue rcost).1.1 =
      if rcValue < peer.params.BufLimit ∧
          peer.params.BufLimit - rcValue > recharge peer.params ((peer.recalcBV now).bufValue - cost) now now then
        peer.params.BufLimit - rcValue
      else recharge peer.params ((peer.recalcBV now).bufValue - cost) now now := by
  simp only [RequestProcessed]
  exact apply_ite ClientNode.bufValue _ _ _

/-- A request dearer than the limit, on a full buffer: the subtraction wraps,
and the recharge at the same instant caps the wrapped value back to the
limit, which RequestProcessed returns whatever the manager says. -/
theorem RequestProcessed_dear (peer : ClientNode) (now : AbsTime) (cost rcValue rcost : UInt64)
    (full : (peer.recalcBV now).bufValue = peer.params.BufLimit) (dear : peer.params.BufLimit < cost) :
    (peer.RequestProcessed now cost rcValue rcost).1.1 = peer.params.BufLimit := by
  have wraps : peer.params.BufLimit < (peer.recalcBV now).bufValue - cost := by
    rw [full]
    exact lt_sub_of_lt _ _ dear
  have drained : recharge peer.params ((peer.recalcBV now).bufValue - cost) now now = peer.params.BufLimit := by
    rw [recharge_same, if_pos wraps]
  -- BufLimit - rcValue never exceeds the limit, so the manager cannot lower it
  have raises : ¬ (rcValue < peer.params.BufLimit ∧ peer.params.BufLimit - rcValue > peer.params.BufLimit) := by
    rintro ⟨positive, above⟩
    exact absurd above (UInt64.not_lt.mpr (UInt64.sub_le (UInt64.le_of_lt positive)))
  rw [RequestProcessed_bv, drained, if_neg raises]

end ClientNode

/-! ### The handler's check -/

/-- requestCosts: the announced cost of one message code. -/
structure requestCosts where
  baseCost : UInt64
  reqCost : UInt64
  deriving DecidableEq, Repr

/-- The reject closure of ProtocolManager.handleMsg, at time now: a request of
reqCnt items is refused without a flow control node or above maxCnt, and else
when its cost, capped at the server's BufLimit, exceeds the buffer value
AcceptRequest reports. The node after AcceptRequest is returned with it. -/
def reject (fcClient : Option ClientNode) (now : AbsTime) (accepted : Bool) (defParams : ServerParams)
    (costs : requestCosts) (reqCnt maxCnt : UInt64) : Bool × Option ClientNode :=
  match fcClient with
  | none => (true, none)
  | some client =>
    if reqCnt > maxCnt then (true, some client)
    else
      let ((bufValue, _), client) := client.AcceptRequest now accepted
      let cost := costs.baseCost + reqCnt * costs.reqCost
      let cost := if cost > defParams.BufLimit then defParams.BufLimit else cost
      (decide (cost > bufValue), some client)

/-- On a node whose recharged value is full, no request within maxCnt is
refused, however dear. -/
theorem reject_full (client : ClientNode) (now : AbsTime) (accepted : Bool) (costs : requestCosts)
    (reqCnt maxCnt : UInt64) (counted : reqCnt ≤ maxCnt)
    (full : (client.recalcBV now).bufValue = client.params.BufLimit) :
    reject (some client) now accepted client.params costs reqCnt maxCnt = (false, some (client.recalcBV now)) := by
  have capped := cap_le client.params.BufLimit (costs.baseCost + reqCnt * costs.reqCost)
  simp only [reject, if_neg (UInt64.not_lt.mpr counted), ClientNode.AcceptRequest, full]
  simp [UInt64.not_lt.mpr capped]

/-! ### The client's node for one server -/

/-- ServerNode: the client's estimate of its buffer at one server, with the
sum of the costs it sent and, for each request waiting for its reply, that sum
just after it was sent. -/
structure ServerNode where
  bufEstimate : UInt64
  lastTime : AbsTime
  params : ServerParams
  sumCost : UInt64
  pending : List (UInt64 × UInt64)
  deriving DecidableEq, Repr

def NewServerNode (params : ServerParams) (now : AbsTime) : ServerNode :=
  { bufEstimate := params.BufLimit, lastTime := now, params, sumCost := 0, pending := [] }

namespace ServerNode

def recalcBLE (peer : ServerNode) (time : AbsTime) : ServerNode :=
  { peer with bufEstimate := recharge peer.params peer.bufEstimate peer.lastTime time, lastTime := time }

/-- The cost canSend checks the estimate against: maxCost plus a millisecond
of recharge, capped at the limit. -/
def checkedCost (params : ServerParams) (maxCost : UInt64) : UInt64 :=
  let maxCost := maxCost + safetyMargin * params.MinRecharge / fcTimeConst
  if maxCost > params.BufLimit then params.BufLimit else maxCost

/-- CanSend (canSend under the read lock) at time now: the time to wait before
a request of cost maxCost may be sent, and the estimate left after it relative
to the limit. -/
def CanSend (peer : ServerNode) (now : AbsTime) (maxCost : UInt64) : (Int64 × Float) × ServerNode :=
  let peer := peer.recalcBLE now
  let maxCost := checkedCost peer.params maxCost
  if peer.bufEstimate ≥ maxCost then
    ((0, (peer.bufEstimate - maxCost).toFloat / peer.params.BufLimit.toFloat), peer)
  else
    ((((maxCost - peer.bufEstimate) * fcTimeConst / peer.params.MinRecharge).toInt64, 0), peer)

def QueueRequest (peer : ServerNode) (reqID maxCost : UInt64) : ServerNode :=
  let sumCost := peer.sumCost + maxCost
  { peer with bufEstimate := peer.bufEstimate - maxCost, sumCost, pending := GoMap.set peer.pending reqID sumCost }

/-- GotReply at time now: the reply to reqID reports the buffer value bv; the
estimate becomes bv less the costs sent after that request. -/
def GotReply (peer : ServerNode) (now : AbsTime) (reqID bv : UInt64) : ServerNode :=
  let bv := if bv > peer.params.BufLimit then peer.params.BufLimit else bv
  match GoMap.get peer.pending reqID with
  | none => peer
  | some sc =>
    let cc := peer.sumCost - sc
    { peer with pending := GoMap.delete peer.pending reqID, bufEstimate := if bv > cc then bv - cc else 0,
                lastTime := now }

@[simp] theorem params_recalcBLE (peer : ServerNode) (time : AbsTime) : (peer.recalcBLE time).params = peer.params :=
  rfl

@[simp] theorem CanSend_snd (peer : ServerNode) (now : AbsTime) (maxCost : UInt64) :
    (peer.CanSend now maxCost).2 = peer.recalcBLE now := by
  unfold CanSend
  dsimp only
  split <;> rfl

theorem recalcBLE_le (peer : ServerNode) (time : AbsTime) : (peer.recalcBLE time).bufEstimate ≤ peer.params.BufLimit :=
  recharge_le _ _ _ _

/-- CanSend says to send at once exactly when the recharged estimate covers the
checked cost. -/
theorem CanSend_wait_zero (peer : ServerNode) (now : AbsTime) (maxCost : UInt64) :
    (peer.CanSend now maxCost).1.1 = 0 ↔
      checkedCost peer.params maxCost ≤ (peer.recalcBLE now).bufEstimate ∨
        ((checkedCost peer.params maxCost - (peer.recalcBLE now).bufEstimate) * fcTimeConst /
          peer.params.MinRecharge).toInt64 = 0 := by
  unfold CanSend
  dsimp only
  split
  · exact iff_of_true rfl (Or.inl ‹_›)
  · rename_i short
    rw [params_recalcBLE] at short
    simp [short]

/-- A full estimate lets any request go at once. -/
theorem CanSend_full (peer : ServerNode) (now : AbsTime) (maxCost : UInt64)
    (full : (peer.recalcBLE now).bufEstimate = peer.params.BufLimit) : (peer.CanSend now maxCost).1.1 = 0 := by
  refine (CanSend_wait_zero peer now maxCost).mpr (Or.inl ?_)
  rw [full]
  exact cap_le _ _

/-- Where the cost plus the margin does not overflow and stays within the
limit, a zero wait means the estimate covers the cost: the subtraction of the
QueueRequest that follows is exact. -/
theorem QueueRequest_exact_after_CanSend (peer : ServerNode) (now : AbsTime) (reqID maxCost : UInt64)
    (fits : maxCost.toNat + (safetyMargin * peer.params.MinRecharge / fcTimeConst).toNat < 2 ^ 64)
    (within : maxCost ≤ peer.params.BufLimit)
    (covered : checkedCost peer.params maxCost ≤ (peer.recalcBLE now).bufEstimate) :
    ((peer.CanSend now maxCost).2.QueueRequest reqID maxCost).bufEstimate.toNat =
      (peer.recalcBLE now).bufEstimate.toNat - maxCost.toNat := by
  have atLeast : maxCost ≤ checkedCost peer.params maxCost := by
    unfold checkedCost
    dsimp only
    split
    · exact within
    · rw [UInt64.le_iff_toNat_le, UInt64.toNat_add, Nat.mod_eq_of_lt fits]
      omega
  rw [CanSend_snd]
  exact UInt64.toNat_sub_of_le _ _ (UInt64.le_trans atLeast covered)

end ServerNode

/-! ### The client's costs -/

/-- GetRequestCost (les/peer.go): the cost of amount items of a message, from
the costs the server announced, capped at the server's BufLimit. -/
def GetRequestCost (params : ServerParams) (costs : requestCosts) (amount : UInt64) : UInt64 :=
  let cost := costs.baseCost + costs.reqCost * amount
  if cost > params.BufLimit then params.BufLimit else cost

theorem GetRequestCost_le (params : ServerParams) (costs : requestCosts) (amount : UInt64) :
    GetRequestCost params costs amount ≤ params.BufLimit :=
  cap_le _ _

/-! ### A request that reaches the server late -/

/-- A limit of 100 and a recharge of 1 a millisecond, both nodes fresh at time
0. The client sends a request whose capped cost is 50 at time 0; the server
receives it 5 ms later, when its full buffer has had no room for the 5 the
client counts on, and has processed it at 5.001 ms, the manager reporting the
1000 ns it served. At that instant the client's estimate, recharged from time
0, is 55 while the server holds 50. The client's next request, of capped cost
53, passes CanSend then, and the server refuses it at 5.002 ms. -/
theorem late_request_refused :
    let params : ServerParams := { BufLimit := 100, MinRecharge := 1 }
    let first : requestCosts := { baseCost := 50, reqCost := 0 }
    let second : requestCosts := { baseCost := 53, reqCost := 0 }
    let client := ((NewServerNode params 0).CanSend 0 (GetRequestCost params first 1)).2.QueueRequest 1
      (GetRequestCost params first 1)
    let server := ((NewClientNode params 0).recalcBV 5000000).RequestProcessed 5001000
      (first.baseCost + 1 * first.reqCost) 1000 1000
    GetRequestCost params first 1 = 50 ∧ GetRequestCost params second 1 = 53 ∧
      ((NewServerNode params 0).CanSend 0 (GetRequestCost params first 1)).1.1 = 0 ∧
      reject (some (NewClientNode params 0)) 5000000 true params first 1 1 =
        (false, some ((NewClientNode params 0).recalcBV 5000000)) ∧
      server.1.1 = 50 ∧ (client.recalcBLE 5001000).bufEstimate = 55 ∧
      (client.CanSend 5001000 (GetRequestCost params second 1)).1.1 = 0 ∧
      (reject (some server.2) 5002000 true params second 1 1).1 = true := by
  intro params first second client server
  decide

end Meshbox.Les
