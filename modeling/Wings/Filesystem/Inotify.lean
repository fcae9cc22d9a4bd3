import Wings.Filesystem.Notifier
import Wings.Lib.Run

/-!
# Wings.Filesystem.Inotify — watching a server's directories

The event loop of `inotify.rs` for one server, next to a kernel that queues one event for each change in a
directory that is watched at that moment, and to the calls that take the modified paths.

* `Kernel` — the directories with their paths and watches, the operations on them, and the queue of events.
* `State`, `handle`, `unwatchTree`, `step` — the table of watches and the steps of the loop.
-/

namespace Wings.Filesystem.Inotify

open Lib

/-! ## The kernel -/

inductive Flag where
  | attrib
  | create
  | delete
  | modify
  | movedFrom
  | movedTo
  | deleteSelf
  | moveSelf
  | ignored
  | unmount
  | queueOverflow
  deriving DecidableEq

def Flag.isChange : Flag → Bool
  | .attrib | .create | .delete | .modify | .movedFrom | .movedTo => true
  | _ => false

structure Event where
  wd : ℕ
  flag : Flag
  isDir : Bool
  name : Option FileName
  deriving DecidableEq

/-- A directory: where it is, and the descriptor of its watch. -/
structure Directory where
  path : Path
  wd : Option ℕ
  deriving DecidableEq

structure Kernel where
  dirs : List Directory
  nextWd : ℕ
  queue : List Event

def child (path : Path) (name : FileName) : Path := path ++ [.normal name]

namespace Kernel

def hasDir (k : Kernel) (path : Path) : Bool := k.dirs.any (·.path = path)

def wdAt (k : Kernel) (path : Path) : Option ℕ := (k.dirs.find? (·.path = path)).bind (·.wd)

/-- The events of a change to an entry of the directory at a path. -/
def events (k : Kernel) (path : Path) (flag : Flag) (isDir : Bool) (name : Option FileName) : List Event :=
  (k.wdAt path).toList.map fun wd => ⟨wd, flag, isDir, name⟩

/-- Whether there is no directory below the path. -/
def isEmpty (k : Kernel) (path : Path) : Bool := k.dirs.all fun d => path <+: d.path → d.path = path

/-- The directory at a path is gone, and with it its watch. -/
def remove (k : Kernel) (path : Path) : Kernel :=
  { k with
    dirs := k.dirs.filter (·.path ≠ path)
    queue := k.queue ++ k.events path .deleteSelf false none ++ k.events path .ignored false none }

def mkdir (k : Kernel) (parent : Path) (name : FileName) : Option Kernel :=
  if k.hasDir parent && !k.hasDir (child parent name) then
    some { k with
      dirs := k.dirs ++ [⟨child parent name, none⟩]
      queue := k.queue ++ k.events parent .create true (some name) }
  else none

def rmdir (k : Kernel) (parent : Path) (name : FileName) : Option Kernel :=
  if k.hasDir parent && k.hasDir (child parent name) && k.isEmpty (child parent name) then
    some (remove { k with queue := k.queue ++ k.events parent .delete true (some name) } (child parent name))
  else none

/-- A change to something that is not a directory. -/
def change (k : Kernel) (dir : Path) (flag : Flag) (name : FileName) : Option Kernel :=
  if k.hasDir dir && flag.isChange then
    some { k with queue := k.queue ++ k.events dir flag false (some name) }
  else none

/-- The directory after another was moved, with all below it. -/
def relocate (source target : Path) (d : Directory) : Directory :=
  if source <+: d.path then { d with path := target ++ d.path.drop source.length } else d

/-- A directory is moved; an empty one at the target is replaced. -/
def rename (k : Kernel) (parent : Path) (name : FileName) (parent' : Path) (name' : FileName) : Option Kernel :=
  let source := child parent name
  let target := child parent' name'
  if k.hasDir parent && k.hasDir source && k.hasDir parent' && k.isEmpty target &&
      decide (¬source <+: target) then
    let moved := { k with
      queue := k.queue ++ k.events parent .movedFrom true (some name) ++
        k.events parent' .movedTo true (some name') ++ k.events source .moveSelf true none }
    let freed := moved.remove target
    some { freed with dirs := freed.dirs.map (relocate source target) }
  else none

/-- `inotify_add_watch`: the watch of the directory at the path, or a new one. -/
def addWatch (k : Kernel) (path : Path) : Option (ℕ × Kernel) :=
  if k.hasDir path then
    match k.wdAt path with
    | some wd => some (wd, k)
    | none =>
      some (k.nextWd, { k with
        nextWd := k.nextWd + 1
        dirs := k.dirs.map fun d => if d.path = path then { d with wd := some k.nextWd } else d })
  else none

/-- `inotify_rm_watch` for each of these watches. -/
def removeWatches (k : Kernel) (gone : ℕ → Bool) : Kernel :=
  { k with
    dirs := k.dirs.map fun d => if d.wd.any gone then { d with wd := none } else d
    queue := k.queue ++ ((k.dirs.filterMap (·.wd)).filter gone).map fun wd => ⟨wd, .ignored, false, none⟩ }

def readDir (k : Kernel) (path : Path) : List Path :=
  (k.dirs.map (·.path)).filter fun p => p.parent = some path

end Kernel

/-! ## The event loop -/

structure State where
  kernel : Kernel
  /-- `Watches::dirs`, the paths by descriptor. -/
  table : ℕ → Option Path
  notifier : InotifyServerNotifier
  /-- The events of the batch that are not handled yet. -/
  buffer : List Event
  touched : List ℕ
  newDirs : List Path
  staleDirs : List Path
  /-- The stack of `watch_tree`, and the directory it reads next. -/
  stack : List Path
  reading : Option Path

def collect (st : State) (dir : Path) (e : Event) : State :=
  match e.isDir, e.name, e.flag with
  | true, some name, .create => { st with newDirs := st.newDirs ++ [child dir name] }
  | true, some name, .movedTo => { st with newDirs := st.newDirs ++ [child dir name] }
  | true, some name, .movedFrom => { st with staleDirs := st.staleDirs ++ [child dir name] }
  | _, _, _ => st

/-- The path of an event, recorded once for a directory and batch unless there are files to watch. -/
def notice (st : State) (dir : Path) (e : Event) : State :=
  if st.notifier.hasFirewallFiles then
    { st with notifier := st.notifier.addPath ((e.name.map (child dir)).getD dir) }
  else if e.wd ∈ st.touched then st
  else { st with touched := e.wd :: st.touched, notifier := st.notifier.addPath dir }

def handleEvent (st : State) (dir : Path) (e : Event) : State :=
  match e.flag with
  | .unmount => { st with notifier := { st.notifier with isTrusted := false } }
  | .deleteSelf | .moveSelf =>
    let isTrusted := if dir = st.notifier.path then false else st.notifier.isTrusted
    { st with notifier := { st.notifier with isTrusted }.addPath dir }
  | _ => notice (collect st dir e) dir e

def handle (st : State) (e : Event) : State :=
  match e.flag with
  | .queueOverflow => { st with notifier := st.notifier.addPath st.notifier.path }
  | .ignored => { st with table := Function.update st.table e.wd none }
  | _ =>
    match st.table e.wd with
    | none => st
    | some dir => handleEvent st dir e

def unwatchTree (st : State) (path : Path) : State :=
  let gone : ℕ → Bool := fun wd => (st.table wd).any (path <+: ·)
  { st with
    table := fun wd => if gone wd then none else st.table wd
    kernel := st.kernel.removeWatches gone }

def State.idle (st : State) : Bool :=
  st.buffer.isEmpty && st.staleDirs.isEmpty && st.newDirs.isEmpty && st.stack.isEmpty && st.reading.isNone

inductive Action where
  | mkdir (parent : Path) (name : FileName)
  | rmdir (parent : Path) (name : FileName)
  | rename (parent : Path) (name : FileName) (parent' : Path) (name' : FileName)
  | change (dir : Path) (flag : Flag) (name : FileName)
  | watchFirewallFiles (files : List Path)
  | read (n : ℕ)
  | handle
  | unwatch
  | startWatch
  | addWatch
  | readDir
  | take

/-- What a step tells: the changes it made, or the paths it took. -/
inductive Reply where
  | silent
  | changed (paths : List Path)
  | took (paths : List Path)

def operate (st : State) (k : Option Kernel) (paths : List Path) : State × Reply :=
  match k with
  | none => (st, .silent)
  | some kernel => ({ st with kernel }, .changed paths)

def step (st : State) : Action → State × Reply
  | .mkdir parent name => operate st (st.kernel.mkdir parent name) [child parent name]
  | .rmdir parent name => operate st (st.kernel.rmdir parent name) [child parent name]
  | .rename parent name parent' name' =>
    operate st (st.kernel.rename parent name parent' name') [child parent name, child parent' name']
  | .change dir flag name => operate st (st.kernel.change dir flag name) [child dir name]
  | .watchFirewallFiles files =>
    ({ st with notifier := { st.notifier with
      firewallFiles := if files = [] then none else some files } }, .silent)
  | .read n =>
    if st.idle then
      ({ st with
        buffer := st.kernel.queue.take n
        kernel := { st.kernel with queue := st.kernel.queue.drop n } }, .silent)
    else (st, .silent)
  | .handle =>
    match st.buffer with
    | [] => (st, .silent)
    | e :: buffer =>
      let st := { handle st e with buffer }
      ({ st with touched := if buffer = [] then [] else st.touched }, .silent)
  | .unwatch =>
    match st.buffer, st.staleDirs with
    | [], path :: staleDirs => ({ unwatchTree st path with staleDirs }, .silent)
    | _, _ => (st, .silent)
  | .startWatch =>
    match st.buffer, st.staleDirs, st.stack, st.reading, st.newDirs with
    | [], [], [], none, path :: newDirs => ({ st with stack := [path], newDirs }, .silent)
    | _, _, _, _, _ => (st, .silent)
  | .addWatch =>
    match st.buffer, st.stack, st.reading with
    | [], path :: stack, none =>
      match st.kernel.addWatch path with
      | none => ({ st with stack }, .silent)
      | some (wd, kernel) =>
        ({ st with stack, kernel, table := Function.update st.table wd (some path), reading := some path },
          .silent)
    | _, _, _ => (st, .silent)
  | .readDir =>
    match st.reading with
    | none => (st, .silent)
    | some path =>
      ({ st with reading := none, stack := (st.kernel.readDir path).reverse ++ st.stack }, .silent)
  | .take =>
    let (paths, notifier) := st.notifier.takeModifiedPaths
    ({ st with notifier }, .took paths)

end Wings.Filesystem.Inotify
