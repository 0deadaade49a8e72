import Sparcy.DCache

/-!
# The bus arbiter

`Arbiter.sv` forwards one cache's request to the bus: the instruction cache
first when the arbiter is idle, and the owner until it drops its request.
-/

namespace Sparcy

namespace Arbiter

inductive State where
  | i
  | a
  | b
deriving DecidableEq

/-- Which cache the outputs are connected to in this cycle. -/
inductive Grant where
  | none
  | ic
  | dc
deriving DecidableEq

/-- The multiplexer in front of the bus. -/
def grant (s : State) (ic dc : BusRequest) : Grant :=
  match s with
  | .i => if ic.reqcyc then .ic else if dc.reqcyc then .dc else .none
  | .a => if ic.reqcyc then .ic else .none
  | .b => if dc.reqcyc then .dc else .none

/-- The request on the bus. -/
def bus (s : State) (ic dc : BusRequest) : BusRequest :=
  match grant s ic dc with
  | .ic => ic
  | .dc => dc
  | .none => { reqcyc := false, req := 0, reqtag := 0 }

/-- `ic_reqack` and `dc_reqack`: in `STATEA` and `STATEB` the owner stays connected
also in the cycle that drops its request. -/
def icReqack (s : State) (ic dc : BusRequest) (reqack : Bool) : Bool :=
  match s with
  | .i => grant s ic dc == .ic && reqack
  | .a => reqack
  | .b => false

def dcReqack (s : State) (ic dc : BusRequest) (reqack : Bool) : Bool :=
  match s with
  | .i => grant s ic dc == .dc && reqack
  | .a => false
  | .b => reqack

/-- `n_state`. -/
def step (s : State) (ic dc : BusRequest) : State :=
  match grant s ic dc with
  | .ic => .a
  | .dc => .b
  | .none => .i

end Arbiter

end Sparcy
