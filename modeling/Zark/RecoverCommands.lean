import Zark.Library.Shell
import Zark.Library.Text
import Zark.Reclaim
import Zark.Restore

/-!
# The commands recover runs

`_receive`, `anchor_restored` and `create_excluded` of `commands/recover.py`: the strings they put
together of names and property values, and how `sh.run_pipe` and `sh.run` run them.
-/

namespace Zark.RecoverCommands

open Reclaim (isNameChar)

/-! ### How a command is run -/

/-- The characters that send a command to the shell. -/
def shellChars : List Char :=
  ['|', '&', ';', '<', '>', '(', ')', '$', Char.ofNat 96, '"', '\'', '\\', '!', '{', '}', '*', '?',
    '[', ']', '~']

/-- The blanks of `shlex.split`. -/
def isShlexBlank (c : Char) : Bool := decide (c ∈ [' ', '\t', '\r', '\n'])

/-- `shlex.quote`. -/
def quote (s : List Char) : List Char :=
  if s = [] then ['\'', '\'']
  else if s.all fun c => c.isAlphanum || decide
    (c ∈ ['_', '@', '%', '+', '=', ':', ',', '.', '/', '-']) then s
  else '\'' :: (s.flatMap fun c => if c = '\'' then ['\'', '"', '\'', '"', '\''] else [c]) ++ ['\'']

/-- What `sh.run` runs: a command that needs no shell is cut by `shlex.split`, which finds no quote
and no backslash in it. -/
def run (matching : Shell.Word → List Char → Bool) (files : List (List Char))
    (command : List Char) : Option (List (List Char)) :=
  if command.any (· ∈ shellChars) then
    Shell.fields matching files command
  else some (Text.words isShlexBlank command)

/-- `text.replace("  ", " ")`. -/
def collapse : List Char → List Char
  | ' ' :: ' ' :: rest => ' ' :: collapse rest
  | c :: rest => c :: collapse rest
  | [] => []

/-! ### The commands -/

def sendCommand (src : String) (raw : Bool) (base : String) : String :=
  "zfs send " ++ (if raw then "-w " else "") ++
    (if base ≠ "" then "-i " ++ base ++ " " else "") ++ src

def receiveCommand (options : List String) (dst : String) : String :=
  String.ofList (collapse ("zfs receive -u " ++ " ".intercalate options ++ " " ++ dst).toList)

/-- A snapshot on the drive. -/
def source (pool : String) (snap : Snap) : String :=
  pool ++ "/" ++ snap.stored.text ++ "@" ++ snap.name

/-- `_receive_row`: what is sent and what receives it, the monthly base first. -/
def receiveRow (pool : String) (row : RestoreRow) (snap : Snap) (base : Option Snap) (raw : Bool) :
    List (String × String) :=
  let point := source pool snap
  match base with
  | none => [(sendCommand point raw "", receiveCommand row.options row.rel.text)]
  | some monthly =>
      let base := source pool monthly
      [(sendCommand base raw "", receiveCommand row.options row.rel.text),
        (sendCommand point raw base, receiveCommand row.options row.rel.text)]

/-- `_anchor_for`. -/
def anchorFor (disk : DiskGuid) (snap : Snap) : String :=
  anchorName disk.text (pointName snap.creation)

/-- `anchor_restored`: a row's bookmark, at the snapshot it was left at. -/
def bookmarkCommand (rel : Rel) (snap : Snap) (disk : DiskGuid) : String :=
  "zfs bookmark " ++ rel.text ++ "@" ++ snap.name ++ " " ++ rel.text ++ "#" ++ anchorFor disk snap

/-- `create_excluded`: a row's dataset, with its exclusions on a top. -/
def createOptions (row : RestoreRow) : List String :=
  row.options ++ (if row.flags.isSome then ["-o " ++ Flag.replicate.prop ++ "=no"] else []) ++
    if row.flags = some .both then ["-o " ++ Flag.snapshot.prop ++ "=no"] else []

def createCommand (row : RestoreRow) : String :=
  "zfs create -u " ++ " ".intercalate (createOptions row) ++ " " ++ String.ofList
    (quote row.rel.text.toList)

/-! ### What they are to run -/

/-- `-o` and a value for each option. -/
def optionWords (options : List String) : List String :=
  options.flatMap fun o => ["-o", String.ofList (o.toList.drop 3)]

def sendWords (src : String) (raw : Bool) (base : Option String) : List String :=
  ["zfs", "send"] ++ (if raw then ["-w"] else []) ++ (base.elim [] fun b => ["-i", b]) ++ [src]

def receiveWords (options : List String) (dst : String) : List String :=
  ["zfs", "receive", "-u"] ++ optionWords options ++ [dst]

def rowWords (pool : String) (row : RestoreRow) (snap : Snap) (base : Option Snap) (raw : Bool) :
    List (List String × List String) :=
  let receive := receiveWords row.options row.rel.text
  match base with
  | none => [(sendWords (source pool snap) raw none, receive)]
  | some monthly =>
      [(sendWords (source pool monthly) raw none, receive),
        (sendWords (source pool snap) raw (some (source pool monthly)), receive)]

def bookmarkWords (rel : Rel) (snap : Snap) (disk : DiskGuid) : List String :=
  ["zfs", "bookmark", rel.text ++ "@" ++ snap.name, rel.text ++ "#" ++ anchorFor disk snap]

def createWords (row : RestoreRow) : List String :=
  ["zfs", "create", "-u"] ++ optionWords (createOptions row) ++ [row.rel.text]

end Zark.RecoverCommands
