import Mathlib.Data.List.ReduceOption

/-!
# The workload driver and the application

The loops of `run_worker` against the handlers of the application. A worker draws a request, the
application executes it atomically on the `orders` table, and the worker appends an event with the
outcome to the log; other workers may come in between. A statement that the database does not
execute makes a handler answer 500.

Of the table only the ids matter for the answers, so that it is the set of its ids, with the next
value of the sequence that the ids come from.
-/

namespace PgCutover.Workload

open Function

/-! ### Requests -/

/-- The states of an order. -/
inductive OrderStatus where
  | pending
  | shipped
  | delivered
  | cancelled
  deriving DecidableEq, Repr

/-- A request of the driver to the application. -/
inductive Request where
  | itemsCount
  | ordersSummary
  | itemsAvgValue (fromId toId : ℕ)
  | itemsTop
  | ordersByCustomer (customerId : ℕ)
  | ordersRecent (status : OrderStatus) (minutes : ℕ)
  | postOrder (itemId customerId quantity : ℕ)
  | putQuantity (id : ℕ)
  | deleteOldest (after : ℕ)
  deriving DecidableEq, Repr

/-- The kinds of operations in the log. -/
inductive Op where
  | read
  | write
  | cdcMarker
  deriving DecidableEq, Repr

/-- The kind of a request. -/
def Request.op : Request → Op
  | .postOrder _ _ _ | .putQuantity _ | .deleteOldest _ => .write
  | _ => .read

/-- The status that the driver draws. -/
def orderStatuses : ℕ → OrderStatus
  | 0 => .pending
  | 1 => .shipped
  | 2 => .delivered
  | _ => .cancelled

/-- The request of one round of the loop, from the values of `RANDOM` in the order in which they
are drawn. -/
def drawRequest (random : ℕ → ℕ) : Request :=
  if random 0 % 10 < 7 then
    match random 1 % 6 with
    | 0 => .itemsCount
    | 1 => .ordersSummary
    | 2 =>
      let fromId := random 2 % 500 + 1
      .itemsAvgValue fromId (fromId + 500)
    | 3 => .itemsTop
    | 4 => .ordersByCustomer (random 2 % 10 + 1)
    | _ => .ordersRecent (orderStatuses (random 3 % 4)) (random 2 % 120 + 30)
  else
    match random 1 % 3 with
    | 0 => .postOrder (random 2 % 1000 + 1) (random 3 % 10 + 1) (random 4 % 20 + 1)
    | 1 => .putQuantity (random 2 % 500 + 1)
    | _ => .deleteOldest (random 2 % 400 + 100)

/-! ### The application -/

/-- The ids in the `orders` table, and the next value of their sequence. -/
structure Orders where
  contains : ℕ → Bool
  nextId : ℕ

/-- The table after it has been seeded with the ids 1 to 3000000. -/
def Orders.seeded : Orders where
  contains id := decide (1 ≤ id) && decide (id ≤ 3000000)
  nextId := 3000001

namespace Orders

variable (orders : Orders)

/-- `SELECT min(id) FROM orders WHERE id > after`. -/
def minAfter (after : ℕ) : Option ℕ :=
  (List.range' (after + 1) (orders.nextId - (after + 1))).find? orders.contains

/-- The handlers of the read requests answer with what the query returns. -/
def get : ℕ × Orders := (200, orders)

/-- `POST /orders`. -/
def post : ℕ × Orders :=
  (201, ⟨update orders.contains orders.nextId true, orders.nextId + 1⟩)

/-- `PUT /orders/:id/quantity`. -/
def putQuantity (id : ℕ) : ℕ × Orders :=
  if orders.contains id then (200, orders) else (404, orders)

/-- `DELETE /orders/oldest`. -/
def deleteOldest (after : ℕ) : ℕ × Orders :=
  match orders.minAfter after with
  | some id => (200, { orders with contains := update orders.contains id false })
  | none => (404, orders)

/-- The status code of the answer, and the table after the request. -/
def handle (sqlOk : Bool) (request : Request) : ℕ × Orders :=
  if sqlOk then
    match request with
    | .postOrder _ _ _ => orders.post
    | .putQuantity id => orders.putQuantity id
    | .deleteOldest after => orders.deleteOldest after
    | _ => orders.get
  else (500, orders)

end Orders

/-! ### The workers -/

/-- The outcome of a request. -/
inductive Status where
  | ok
  | error
  deriving DecidableEq, Repr

/-- A line of the workload log. -/
structure LogEvent where
  ts : ℕ
  status : Status
  op : Op
  deriving DecidableEq, Repr

/-- Where a worker is in its loop. -/
inductive Pc where
  | start
  | sent (request : Request)
  | answered (request : Request) (httpCode : ℕ)
  deriving DecidableEq

/-- The table, the workers and the log. -/
structure State where
  orders : Orders
  pc : ℕ → Pc
  log : List LogEvent

/-- The seeded table and workers that have not begun. -/
def State.init : State := ⟨Orders.seeded, fun _ => .start, []⟩

/-- The answer is a success when its code starts with 2. -/
def statusOf (httpCode : ℕ) : Status := if httpCode / 100 = 2 then .ok else .error

/-- What a worker does next. -/
inductive Event where
  /-- The worker reads `api_endpoint`, which may be empty, and draws a request. -/
  | draw (worker ts : ℕ) (endpointSet : Bool) (random : ℕ → ℕ)
  | execute (worker : ℕ) (sqlOk : Bool)
  | logEvent (worker ts : ℕ)

namespace State

variable (s : State)

/-- The worker draws a request. -/
def draw (worker ts : ℕ) (endpointSet : Bool) (random : ℕ → ℕ) : Option State :=
  match s.pc worker with
  | .start =>
    if endpointSet then some { s with pc := update s.pc worker (.sent (drawRequest random)) }
    else some { s with log := s.log ++ [⟨ts, .error, .read⟩] }
  | _ => none

/-- The application executes the request. -/
def execute (worker : ℕ) (sqlOk : Bool) : Option State :=
  match s.pc worker with
  | .sent request =>
    let answer := s.orders.handle sqlOk request
    some { s with
      orders := answer.2
      pc := update s.pc worker (.answered request answer.1) }
  | _ => none

/-- The worker appends an event to the log. -/
def logEvent (worker ts : ℕ) : Option State :=
  match s.pc worker with
  | .answered request httpCode =>
    some { s with
      pc := update s.pc worker .start
      log := s.log ++ [⟨ts, statusOf httpCode, request.op⟩] }
  | _ => none

end State

/-- One event, if it is possible. -/
def step (s : State) : Event → Option State
  | .draw worker ts endpointSet random => s.draw worker ts endpointSet random
  | .execute worker sqlOk => s.execute worker sqlOk
  | .logEvent worker ts => s.logEvent worker ts

end PgCutover.Workload
