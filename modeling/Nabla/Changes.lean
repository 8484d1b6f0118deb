import Nabla.Client
import Nabla.Populate

/-! `nabla.changes`: the pages a subscriber reads of a view's delta log. -/
namespace Nabla

/-- An error with a SQLSTATE of its own. -/
structure ApiError where
  code : String
  message : String
  detail : String
  hint : String
deriving DecidableEq

def errLagged (name : String) (oldest : Int) : ApiError :=
  ⟨"NB001", s!"nabla: subscriber lagged behind retention for view \"{name}\"", s!"oldest retained seq is {oldest}",
    "resync from the view and continue from nabla.status(...).current_seq"⟩

def errStale (name : String) (reason : Option String) : ApiError :=
  ⟨"NB002", s!"nabla: view \"{name}\" is stale", reason.getD "reason not recorded",
    s!"run nabla.refresh('{name}') after fixing the cause"⟩

def errEpochChanged (name : String) (was now : Int) : ApiError :=
  ⟨"NB003", s!"nabla: view \"{name}\" epoch changed", s!"epoch {was} -> {now}", "resync from the view"⟩

def errFailed (name : String) (reason : Option String) : ApiError :=
  ⟨"NB006", s!"nabla: view \"{name}\" failed to build", reason.getD "reason not recorded",
    s!"fix the cause, then run nabla.refresh('{name}') or nabla.drop_view('{name}')"⟩

/-- `row - hidden`. -/
def Json.without (hidden : List String) : Json → Json
  | .obj fields => .obj (fields.filter fun f => !hidden.contains f.1)
  | json => json

def DeltaOp.text : DeltaOp → String
  | .I => "I"
  | .D => "D"

def LoggedDelta.output (hidden : List String) (d : LoggedDelta) : Client.ServerRow :=
  ⟨d.seq, formatLsn d.lsn, some d.xid, d.op.text, d.rowJson.without hidden⟩

/-- The rows of one source transaction. -/
def LoggedDelta.together (a b : LoggedDelta) : Bool := decide (a.lsn = b.lsn) && decide (a.xid = b.xid)

/-- `page`: the first `limit` deltas after the cursor. -/
def page (deltas : List LoggedDelta) (after : Int) (limit : Nat) : List LoggedDelta :=
  ((deltas.filter fun d => decide (after < d.seq)).mergeSort fun a b => a.seq ≤ b.seq).take limit

/-- `rest`: what a full page leaves out of its last transaction. -/
def rest (deltas page : List LoggedDelta) (limit : Nat) : List LoggedDelta :=
  match page.getLast? with
  | none => []
  | some last =>
    if limit ≤ page.length then deltas.filter fun d => decide (last.seq < d.seq) && d.together last else []

/-- The rows `changes` returns, in order. -/
def pageRows (deltas : List LoggedDelta) (after : Int) (maxRows : Int) : List LoggedDelta :=
  let limit := (max maxRows 1).toNat
  let first := page deltas after limit
  (first ++ rest deltas first limit).mergeSort fun a b => a.seq ≤ b.seq

def changes (view : ViewRow) (after epoch maxRows : Int) (includeHidden : Bool) : Except ApiError (List Client.ServerRow) :=
  match view.status with
  | .stale => .error (errStale view.name view.staleReason)
  | .failed => .error (errFailed view.name view.lastError)
  | _ =>
    if epoch ≠ view.epoch then .error (errEpochChanged view.name epoch view.epoch)
    else
      let hidden := if includeHidden then [] else view.spec.hiddenColumns
      let rows := (pageRows view.deltas after maxRows).map (LoggedDelta.output hidden)
      match (view.deltas.map LoggedDelta.seq).min? with
      | some oldest => if after < (oldest : Int) - 1 then .error (errLagged view.name oldest) else .ok rows
      | none => if after < view.lastSeq then .error (errLagged view.name (view.lastSeq + 1)) else .ok rows

end Nabla
