import Zark.Replication

/-!
# Streams

What `Run._send_args` asks `zfs send` for, what the stream then carries, and what a receive without
`-F` makes of it: an incremental lands only on the snapshot it starts from, as the destination's
newest and with nothing written since, and a full stream or a clone only where no dataset is.
-/

namespace Zark

open Hierarchy

/-! ### Sends -/

/-- The arguments of one `zfs send`: `-t token`, `rel@target`, `-i rel#bookmark rel@target` or
`-I source rel@target`, raw with `-w`. -/
inductive Send where
  | resume (token : String)
  | full (raw : Bool) (rel : Rel) (target : String)
  | fromBookmark (rel : Rel) (bookmark target : String)
  | fromSnapshot (raw : Bool) (source : SnapName) (rel : Rel) (target : String)
  deriving DecidableEq, Repr

/-- First origin snapshot after a bookmark, or the point. -/
def afterBookmark (o : Origin) (bookmark point : String) : String :=
  let later : List Ref := match o.bookmarks.get? bookmark with
    | some bm => o.snaps.items.filter fun s => s.createtxg > bm.createtxg
    | none => o.snaps.items
  (later.head?.map Ref.name).getD point

/-- The sends over a bookmark: to the first snapshot after it, and on to the point. -/
def sendsFromBookmark (rel : Rel) (bookmark first point : String) : List Send :=
  .fromBookmark rel bookmark first :: if first = point then []
    else [.fromSnapshot true (rel, first) rel point]

/-- `Run._send_args`: one entry per stream. -/
def sendArgs (origin : Origins) (dest : Drive) (point : String) (p : DatasetPlan) (full : Bool) :
    List Send :=
  let raw := !isBpool p.rel
  if p.state = .resume then [.resume (((dest.get? p.rel).map Dest.token).getD "")]
  else if p.state = .new ∧ p.cloneFrom.isSome ∧ full = false then
    match p.base with
    | .full source => [.fromSnapshot raw source p.rel point]
    | _ => []
  else if full = true ∨ p.state = .new ∨ p.state = .diverged then [.full raw p.rel point]
  else
    match p.base with
    | .bookmark bm =>
        let first := match p.first with
          | some first => first
          | none => ((origin.get? p.rel).map fun o => afterBookmark o bm point).getD point
        sendsFromBookmark p.rel bm first point
    | .snapshot name =>
        if p.state = .incremental ∨ p.state = .rollback ∨ p.state = .modified then
          [.fromSnapshot raw (p.rel, name) p.rel point]
        else []
    | _ => []

/-- What travels: the guid a stream starts from, none for a full one, and the snapshots it carries
in order. -/
structure Stream where
  source : Option String
  refs : List Ref
  deriving DecidableEq, Repr

/-- The source of a send is in origin, before the snapshot it ends at; a clone's snapshots all come
after its own origin. -/
def Send.SourceBefore (origin : Origins) : Send → Prop
  | .resume _ => False
  | .full _ _ _ => True
  | .fromBookmark rel bookmark target =>
      ∃ o bm t, origin.get? rel = some o ∧ o.bookmarks.get? bookmark = some bm ∧
        o.snaps.get? target = some t ∧
        bm.createtxg < t.createtxg
  | .fromSnapshot _ source rel target =>
      ∃ o s t, origin.get? rel = some o ∧ snapshot? origin source = some s ∧
        o.snaps.get? target = some t ∧
        (source.1 = rel ∧ s.createtxg < t.createtxg ∨ source.1 ≠ rel ∧ o.cloneOf = some source)

/-- `zfs send`: the stream of these arguments; what a token stands for is the drive's to say. -/
def zfsSend (origin : Origins) : Send → Option Stream
  | .resume _ => none
  | .full _ rel target => (snapshot? origin (rel, target)).map fun t => ⟨none, [t]⟩
  | .fromBookmark rel bookmark target =>
      (origin.get? rel).bind fun o => (o.bookmarks.get? bookmark).bind fun bm =>
      (o.snaps.get? target).bind fun t =>
        if bm.createtxg < t.createtxg then some ⟨some bm.guid, [t]⟩ else none
  | .fromSnapshot _ source rel target =>
      (origin.get? rel).bind fun o => (snapshot? origin source).bind fun s =>
      (o.snaps.get? target).bind fun t =>
        if source.1 = rel then
          if s.createtxg < t.createtxg then
            some ⟨some s.guid, o.snaps.items.filter fun x =>
              s.createtxg < x.createtxg && x.createtxg ≤ t.createtxg⟩
          else none
        else if o.cloneOf = some source then
          some ⟨some s.guid, o.snaps.items.filter (·.createtxg ≤ t.createtxg)⟩
        else none

/-! ### Receives -/

/-- Snapshots as the drive lists them: their names and guids, in transaction groups of its own. -/
def received (txg : ℕ) : List Ref → List Ref
  | [] => []
  | s :: rest => { s with createtxg := txg } :: received (txg + 1) rest

/-- The dataset with received snapshots after its own, refused when a name is taken. -/
def Dest.receive (d : Dest) (refs : List Ref) : Option Dest :=
  (Keyed.ofList? Ref.name (d.snaps.items ++
      received ((d.newest.map fun n => n.createtxg + 1).getD 0) refs)).map fun snaps =>
    { d with snaps }

/-- The guid of a snapshot the drive holds. -/
def heldGuid (dest : Drive) (name : SnapName) : Option String :=
  (dest.get? name.1).bind fun d => (d.snaps.get? name.2).map Ref.guid

/-- `zfs receive -s -u`, of a whole stream, below a parent that is there. -/
def zfsReceive (dest : Drive) (rel : Rel) (cloneFrom : Option SnapName) (stream : Stream) :
    Option Drive :=
  match dest.get? rel with
  | some d =>
      if stream.source.isSome ∧ stream.source = d.newest.map Ref.guid ∧ d.token = "" ∧
          d.written = 0 then
        (d.receive stream.refs).map dest.set
      else none
  | none =>
      let fits := match cloneFrom with
        | none => stream.source.isNone
        | some copy => stream.source.isSome && stream.source == heldGuid dest copy
      if parent rel ∈ dest.keys ∧ fits = true then
        (Dest.receive { rel, cloneOf := cloneFrom } stream.refs).bind dest.push?
      else none

/-- `Run.transfer` with every stream accepted, one after another. -/
def transfer (origin : Origins) (dest : Drive) (point : String) (p : DatasetPlan) : Option Drive :=
  (sendArgs origin dest point p false).foldlM
    (fun dest send => (zfsSend origin send).bind
      (zfsReceive dest p.rel (if p.state = .new then p.cloneFrom else none))) dest

end Zark
