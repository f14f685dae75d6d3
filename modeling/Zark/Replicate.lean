import Zark.Engine

/-!
# A run up to its ending

What `replicate` can have done by the time it comes to an ending: the point taken on every pool or
not, any surveys, the changes the user chose while no receive has begun, and transfers that end
whole, cut or refused.
-/

namespace Zark

/-! ### Transfers -/

/-- One `zfs receive -s`: the whole stream, the snapshots that came whole before it was cut with
the state to resume the next one, or nothing. -/
inductive Receives (dest : Drive) (rel : Rel) (cloneFrom : Option SnapName) (stream : Stream) :
    Bool → Drive → Prop
  | whole {after : Drive} (h : zfsReceive dest rel cloneFrom stream = some after) :
      Receives dest rel cloneFrom stream true after
  | cut {k : Nat} {mid : Drive} {e : Dest} {token : String} (hk : k < stream.refs.length)
      (h : zfsReceive dest rel cloneFrom { stream with refs := stream.refs.take k } = some mid)
      (he : mid.get? rel = some e) :
      Receives dest rel cloneFrom stream false (mid.set { e with token })
  | refused : Receives dest rel cloneFrom stream false dest

/-- The loop of `Run.transfer`: the first stream that fails ends it. -/
inductive Transfers (origin : Origins) (p : DatasetPlan) : Drive → List Send → Drive → Prop
  | done {dest : Drive} : Transfers origin p dest [] dest
  | unsent {dest : Drive} {send : Send} {rest : List Send} :
      Transfers origin p dest (send :: rest) dest
  | stopped {dest after : Drive} {send : Send} {rest : List Send} {stream : Stream}
      (hsend : zfsSend origin send = some stream)
      (hreceive : Receives dest p.rel (if p.state = .new then p.cloneFrom else none) stream
        false after) :
      Transfers origin p dest (send :: rest) after
  | next {dest mid after : Drive} {send : Send} {rest : List Send} {stream : Stream}
      (hsend : zfsSend origin send = some stream)
      (hreceive : Receives dest p.rel (if p.state = .new then p.cloneFrom else none)
        stream true mid)
      (hrest : Transfers origin p mid rest after) : Transfers origin p dest (send :: rest) after

/-- What `Run.transfer` leaves on the drive. A resumed receive ends with the one snapshot its token
was for. -/
inductive Outcome (run : Run) (p : DatasetPlan) (dest : Drive) : Drive → Prop
  | sent {after : Drive}
      (h : Transfers run.origin p dest (sendArgs run.origin run.dest run.point p false) after) :
      Outcome run p dest after
  | resumed {d : Dest} {x : Ref} {snaps : Keyed Ref.name} (hstate : p.state = .resume)
      (hd : dest.get? p.rel = some d) (htoken : d.token ≠ "")
      (hsnaps : d.snaps.push? x = some snaps) :
      Outcome run p dest (dest.set { d with snaps, token := "" })

/-! ### Runs -/

/-- Where a run can be before it ends. What the user chose changes datasets of the drive, before any
receive began, and brings no snapshot it did not hold. A dataset is transferred as the last survey
planned it, and once. -/
inductive Progress (run₀ : Run) (made : Rel → Ref) (w₀ : World) : Run → World → Prop
  | took : Progress run₀ made w₀ (takePoint run₀ made w₀).2.1 (takePoint run₀ made w₀).2.2
  | surveyed {run : Run} {w : World} (h : Progress run₀ made w₀ run w) :
      Progress run₀ made w₀ (survey run w).2.1 (survey run w).2.2
  | decided {run : Run} {w : World} {dest drive : Drive} (h : Progress run₀ made w₀ run w)
      (hstarted : run.started = [])
      (hdrive : ∀ e ∈ drive, ∀ s ∈ e.snaps, ∃ d ∈ w.drive, ∃ t ∈ d.snaps, t.guid = s.guid) :
      Progress run₀ made w₀ { run with dest } { w with drive }
  | transferred {run : Run} {w : World} {p : DatasetPlan} {drive : Drive}
      (h : Progress run₀ made w₀ run w) (horigin : run.origin = w.origin)
      (hdest : run.dest.get? p.rel = w.drive.get? p.rel)
      (hp : p ∈ plan run.origin run.dest run.point run.exclusions)
      (hstate : p.state.transferable = true) (hpoint : p.state ≠ .atPoint)
      (houtcome : Outcome run p w.drive drive) :
      Progress run₀ made w₀ { run with started := p.rel :: run.started } { w with drive }
  | discarded {run : Run} {w : World} {drive : Drive} (h : Progress run₀ made w₀ run w)
      (hdrive : ∀ e ∈ drive, ∃ d ∈ w.drive, d.rel = e.rel ∧ e.snaps = d.snaps ∧
        (e.token = d.token ∨ e.token = "")) :
      Progress run₀ made w₀ run { w with drive }

end Zark
