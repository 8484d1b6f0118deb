import Mathlib.Algebra.Group.Int.Defs
import Mathlib.Algebra.Group.Nat.Defs
import Nabla.Datum

/-! The reference client: one view's subscription, as `nabla-client` follows it. Each
iteration of `next` is a step that consumes what the server answers in it. -/
namespace Nabla.Client

inductive Op where
  | insert
  | delete
deriving DecidableEq

structure Delta where
  seq : Int
  op : Op
  row : Json

inductive ResyncReason where
  | lagged
  | epochChanged (was now : Int)
  | stale (reason : String)
  | disconnected

inductive Event where
  | snapshot (epoch : Int) (frontier : String) (cursor : Int) (rows : List Json)
  | transaction (xid : Option Int) (lsn : String) (epoch : Int) (deltas : List Delta)
  | resync (reason : ResyncReason)

structure ChangeRow where
  seq : Int
  lsn : String
  xid : Option Int
  op : Op
  row : Json

/-- A row of `nabla.changes` as the driver delivers it. -/
structure ServerRow where
  seq : Int
  lsn : String
  xid : Option Int
  op : String
  row : Json

inductive Error where
  | postgres (message : String)
  | protocol (message : String)
  | notConnected
  | viewFailed (reason : String)

inductive Failure where
  | lagged
  | stale (reason : String)
  | epochChanged (was now : Int)
  | disconnected
  | other (error : Error)

/-- What one bootstrap transaction read. -/
structure Snapshot where
  epoch : Int
  frontier : String
  cursor : Int
  rows : List Json

inductive Boot where
  | ready (snapshot : Snapshot)
  | building
  | stale (reason : String)
  | failed (reason : String)

inductive State where
  | needBootstrap
  | following
deriving DecidableEq

structure Subscription where
  batch : Int
  /-- `conn.is_some()`. -/
  connected : Bool
  state : State
  epoch : Int
  cursor : Int
  /-- Events ready to hand out, with the cursor to adopt once handed out. -/
  pending : List (Event × Option Int)
  /-- Rows of a transaction that may continue in the next batch. -/
  tail : List ChangeRow

/-- `open_with`. -/
def Subscription.opened (batch : Int) : Subscription where
  batch := batch
  connected := true
  state := .needBootstrap
  epoch := 0
  cursor := 0
  pending := []
  tail := []

/-- `reconnect`, once it got through. -/
def Subscription.reconnect (sub : Subscription) : Subscription :=
  { sub with
    connected := true
    state := .needBootstrap
    tail := []
    pending := sub.pending ++ [(.resync .disconnected, none)] }

def Subscription.resync (sub : Subscription) (reason : ResyncReason) : Subscription :=
  { sub with
    pending := sub.pending ++ [(.resync reason, none)]
    tail := []
    state := .needBootstrap }

/-- `bootstrap`, given what its transaction read. -/
def Subscription.bootstrap (sub : Subscription) (snapshot : Snapshot) : Subscription :=
  { sub with
    epoch := snapshot.epoch
    cursor := snapshot.cursor
    state := .following
    tail := []
    pending := sub.pending ++
      [(.snapshot snapshot.epoch snapshot.frontier snapshot.cursor snapshot.rows, some snapshot.cursor)] }

def Subscription.after (sub : Subscription) : Int := (sub.tail.getLast?.map ChangeRow.seq).getD sub.cursor

def parseOp : String → Option Op
  | "I" => some .insert
  | "D" => some .delete
  | _ => none

def gap (expected seq : Int) : Failure :=
  .other (.protocol s!"expected seq {expected}, got {seq}: deltas of a view must be contiguous")

/-- The rows of one answer, which have to continue from `expected`. -/
def parseRows (expected : Int) : List ServerRow → Except Failure (List ChangeRow)
  | [] => .ok []
  | r :: rows =>
    if r.seq ≠ expected then .error (gap expected r.seq)
    else match parseOp r.op with
      | none => .error (.other (.protocol s!"unknown op {r.op.quote}"))
      | some op => (parseRows (expected + 1) rows).map (⟨r.seq, r.lsn, r.xid, op, r.row⟩ :: ·)

/-- The next row joins the last group when it has the xid and lsn of the group's first. -/
def appendRow (groups : List (List ChangeRow)) (row : ChangeRow) : List (List ChangeRow) :=
  match groups.getLast? with
  | none => groups ++ [[row]]
  | some g =>
    if g.head?.any fun first => first.xid = row.xid && first.lsn = row.lsn then groups.dropLast ++ [g ++ [row]]
    else groups ++ [[row]]

/-- `len() as i32`. -/
def asI32 (n : Nat) : Int := Int.bmod n (2 ^ 32)

def ChangeRow.delta (r : ChangeRow) : Delta := ⟨r.seq, r.op, r.row⟩

def groupEvent (epoch : Int) (rows : List ChangeRow) : Event × Option Int :=
  (.transaction (rows.head?.bind ChangeRow.xid) ((rows.head?.map ChangeRow.lsn).getD "") epoch (rows.map ChangeRow.delta),
    rows.getLast?.map ChangeRow.seq)

/-- `fetch`, given the server's answer. -/
def Subscription.fetch (sub : Subscription) (changes : Except Failure (List ServerRow)) : Except Failure Subscription :=
  match changes with
  | .error failure => .error failure
  | .ok rows =>
    let full := decide (sub.batch ≤ asI32 rows.length)
    match parseRows (sub.after + 1) rows with
    | .error failure => .error failure
    | .ok parsed =>
      let groups := (sub.tail ++ parsed).foldl appendRow []
      let ready := if full then groups.dropLast else groups
      .ok { sub with
        tail := if full then groups.getLast?.getD [] else []
        pending := sub.pending ++ ready.map (groupEvent sub.epoch) }

/-- What the server has to say in one iteration: the outcome of a bootstrap, whether the
connection outlives the wait, and the answer of `nabla.changes`. -/
structure Response where
  bootstrap : Except Failure Boot
  awake : Bool
  changes : Except Failure (List ServerRow)

/-- One iteration of `next`: the subscription after it, and what `next` returns when it
returns there. -/
def Subscription.step (sub : Subscription) (response : Response) : Subscription × Option (Except Error Event) :=
  match sub.pending with
  | (event, cursor) :: pending => ({ sub with pending := pending, cursor := cursor.getD sub.cursor }, some (.ok event))
  | [] =>
    if !sub.connected then (sub.reconnect, none)
    else match sub.state with
      | .needBootstrap =>
        match response.bootstrap with
        | .ok (.ready snapshot) => (sub.bootstrap snapshot, none)
        | .ok .building => (sub, none)
        | .ok (.stale reason) => ({ sub with pending := sub.pending ++ [(.resync (.stale reason), none)] }, none)
        | .ok (.failed reason) => (sub, some (.error (.viewFailed reason)))
        | .error .disconnected => ({ sub with connected := false }, none)
        | .error (.other error) => (sub, some (.error error))
        | .error _ => (sub, none)
      | .following =>
        if sub.tail.isEmpty && !response.awake then ({ sub with connected := false }, none)
        else match sub.fetch response.changes with
          | .ok sub' => (sub', none)
          | .error .lagged => (sub.resync .lagged, none)
          | .error (.stale reason) => (sub.resync (.stale reason), none)
          | .error (.epochChanged was now) => (sub.resync (.epochChanged was now), none)
          | .error .disconnected => ({ sub with tail := [], connected := false }, none)
          | .error (.other error) => (sub, some (.error error))

end Nabla.Client
