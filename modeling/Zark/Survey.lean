import Zark.Library.Rows
import Zark.RecoverCommands
import Zark.Replication
import Zark.SanoidConf

/-!
# What a run reads

`lib/survey.py`: the listings a run plans from, read from the text `zfs` prints. A read is strict
when a decision rests on it: a listing that fails is then an error, and no partial one is used.

Dataset names, digits and the marks `-` are ASCII in what `zfs` prints; a number is read as its
decimal digits. A dataset names each of its snapshots once, and each of its bookmarks.
-/

namespace Zark.Survey

open Text RecoverCommands

/-- What `sh.run` gives back of a command. -/
structure RunResult where
  ok : Bool
  stdout : List Char

/-- The rows of a listing, none where it failed. -/
def RunResult.rows (r : RunResult) : List (List (List Char)) :=
  if r.ok then (lines isSpace r.stdout).map fun line => line.splitOn '\t' else []

/-- `checked`: a read that failed is an error when it is strict. -/
def checked (strict : Bool) (command : String) (r : RunResult) : Except String RunResult :=
  if strict && !r.ok then .error ("could not read: " ++ command) else .ok r

variable (run : String → RunResult)

def read (strict : Bool) (command : String) : Except String RunResult :=
  checked strict command (run command)

/-! ### Rows -/

def kindOf (text : List Char) : Kind := if text = "volume".toList then .volume else .filesystem

/-- `ds@name` cut at its first `@`. -/
def snapName (text : List Char) : SnapName :=
  (Rel.ofText (String.ofList (text.takeWhile (· ≠ '@'))),
    String.ofList ((text.dropWhile (· ≠ '@')).drop 1))

/-- A value that is there: `-` is none. -/
def value (text : List Char) : String := if text = ['-'] then "" else String.ofList text

/-- One line of `_parse_refs`: a snapshot or a bookmark and its dataset, whose name starts with
`start`. -/
structure RefRow where
  rel : Rel
  bookmark : Bool
  ref : Ref
  deriving DecidableEq

def refRow (start : List Char) : List (List Char) → Option RefRow
  | full :: guid :: createtxg :: creation :: _ =>
      let sep := if '@' ∈ full then '@' else '#'
      if sep ∈ full ∧ start <+: full then
        match number? createtxg, number? creation with
        | some txg, some time =>
            let rest := full.drop start.length
            some
              { rel := Rel.ofText (String.ofList (rest.takeWhile (· ≠ sep)))
                bookmark := sep = '#'
                ref :=
                  ⟨String.ofList ((rest.dropWhile (· ≠ sep)).drop 1),
                    String.ofList guid, txg, time⟩ }
        | _, _ => none
      else none
  | _ => none

/-- What `_parse_refs` finds for one dataset, by `createtxg`. -/
def refsOf (refs : List RefRow) (rel : Rel) (bookmark : Bool) : Keyed Ref.name :=
  (Keyed.ofList? Ref.name
    (((refs.filter fun r => decide (r.rel = rel) && r.bookmark == bookmark).map RefRow.ref).insertionSort
      fun a b => a.createtxg ≤ b.createtxg)).getD ∅

/-! ### Origin -/

def originRow : List (List Char) → Option Origin
  | name :: kind :: canmount :: mountpoint :: referenced :: origin :: _ =>
      some
        { rel := Rel.ofText (String.ofList name)
          kind := kindOf kind
          canmount := String.ofList canmount
          mountpoint := String.ofList mountpoint
          referenced := (number? referenced).getD 0
          cloneOf := if origin = ['-'] ∨ origin = [] then none else some (snapName origin) }
  | _ => none

def originCommand (pool : String) : String :=
  "zfs list -Hp -t filesystem,volume -o name,type,canmount,mountpoint,referenced,origin -r " ++ pool

def originRefsCommand (pool : String) : String :=
  "zfs list -Hp -t snapshot,bookmark -o name,guid,createtxg,creation -r " ++ pool

/-- The snapshots and bookmarks that were listed, for the datasets that have some. -/
def Origin.attach (refs : List RefRow) (o : Origin) : Origin :=
  if o.rel ∈ refs.map RefRow.rel then
    { o with snaps := refsOf refs o.rel false, bookmarks := refsOf refs o.rel true }
  else o

theorem Origin.attach_rel (refs : List RefRow) (o : Origin) :
    (Origin.attach refs o).rel = o.rel := by
  rw [Origin.attach]
  split <;> rfl

/-- One pool of `read_origin`. -/
def readOriginPool (strict : Bool) (origin : Origins) (pool : String) : Except String Origins := do
  let r ← read run strict (originCommand pool)
  let origin := (r.rows.filterMap originRow).foldl Keyed.put origin
  let r ← read run strict (originRefsCommand pool)
  let refs := r.rows.filterMap (refRow [])
  return origin.map (Origin.attach refs) (Origin.attach_rel refs)

def readOrigin (pools : List String) (strict : Bool) : Except String Origins :=
  pools.foldlM (readOriginPool run strict) ∅

/-! ### A drive -/

def orphanProp : String := "org.zark:orphan"

def excludedKeptProp : String := "org.zark:excluded-kept"

/-- The origin of a clone, when it is on the drive. -/
def cloneFrom (start origin : List Char) : Option SnapName :=
  if start <+: origin then some (snapName (origin.drop start.length)) else none

/-- `_dest_row`, and the origin of a clone. -/
def destRow (start : List Char) : List (List Char) → Option Dest
  | name :: kind :: token :: orphan :: used :: written :: rest =>
      if start <+: name then
        some
          { rel := Rel.ofText (String.ofList (name.drop start.length))
            kind := kindOf kind
            token := value token
            orphan := value orphan
            used := (number? used).getD 0
            written := (number? written).getD 0
            cloneOf := cloneFrom start (rest.headD ['-']) }
      else none
  | _ => none

def childrenCommand (pool : String) : String :=
  "zfs list -H -o name -d 1 " ++ String.ofList (quote pool.toList)

def rootCommand (root : String) : String := "zfs list -H -o name " ++ root

def destCommand (root : String) : String :=
  "zfs list -Hp -t filesystem,volume -o name,type,receive_resume_token," ++ orphanProp ++
    ",used,written,origin -r " ++ root

def keptCommand (root : String) : String :=
  "zfs get -H -s local -t filesystem,volume -o name,value " ++ excludedKeptProp ++ " -r " ++ root

def destRefsCommand (root : String) : String :=
  "zfs list -Hp -t snapshot -o name,guid,createtxg,creation -r " ++ root

/-- The mark of an excluded copy, where it was set. -/
def keepRow (start : List Char) (dest : Drive) : List (List Char) → Drive
  | [name, mark] =>
      if start <+: name then
        match dest.get? (Rel.ofText (String.ofList (name.drop start.length))) with
        | some d =>
            if mark = ['-'] ∨ mark = [] then
              dest
            else dest.set { d with excludedKept := String.ofList mark }
        | none => dest
      else dest
  | _ => dest

def Dest.attach (refs : List RefRow) (d : Dest) : Dest :=
  if d.rel ∈ refs.map RefRow.rel then { d with snaps := refsOf refs d.rel false } else d

theorem Dest.attach_rel (refs : List RefRow) (d : Dest) : (Dest.attach refs d).rel = d.rel := by
  rw [Dest.attach]
  split <;> rfl

/-- The listings of one root of `read_dest`. -/
def readRoot (strict : Bool) (start : List Char) (root : String) (dest : Drive) :
    Except String Drive := do
  let r ← read run strict (destCommand root)
  let dest := (r.rows.filterMap (destRow start)).foldl Keyed.put dest
  let r ← read run strict (keptCommand root)
  let dest := r.rows.foldl (keepRow start) dest
  let r ← read run strict (destRefsCommand root)
  let refs := r.rows.filterMap (refRow start)
  return dest.map (Dest.attach refs) (Dest.attach_rel refs)

/-- `read_dest`: a root is missing only when one listing of the pool's children does not have it; a
read that is not strict asks for each. -/
def readDest (pool : String) (strict : Bool) : Except String Drive := do
  let roots := [pool ++ "/rpool", pool ++ "/bpool"]
  let there ←
    if strict then do
      let r ← read run true (childrenCommand pool)
      pure fun root => decide (root ∈ (lines isSpace r.stdout).map String.ofList)
    else pure fun root => (run (rootCommand root)).ok
  (roots.filter there).foldlM (fun dest root =>
    readRoot run strict (pool ++ "/").toList root dest) ∅

/-! ### The survey -/

/-- `Run.survey`: both sides, read strictly, and the plan for every dataset; `layout` is whether
`/boot` is on ext4. -/
def survey (pools : List String) (pool : String) (ext4 : Bool) (point : String) (skip : List Rel) :
    Except String (List DatasetPlan) := do
  let origin ← readOrigin run pools true
  let dest ← readDest run pool true
  for root in ["rpool", "bpool"] do
    if (dest.keys.any fun rel => decide (Hierarchy.Under rel [root])) && root ∉ pools &&
        !(root = "bpool" && ext4) then
      .error (root ++ " is not imported, and " ++ pool ++
        " holds its backup (import it first: sudo zpool import " ++ root ++ ")")
  return plan origin dest point skip

end Zark.Survey
