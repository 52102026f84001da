import UdfRead.Dir
import UdfRead.Lib.Simulation
import UdfRead.Lib.Publish

/-!
# UdfRead.SharedCache

`_cache_subdir` run by any number of callers at once on the directory tree of one open volume.
A step is a load of one pointer, the test of the flags, a `calloc`, a compare-and-exchange,
the reading of a directory, or a release; the steps of the callers interleave in any order.

An object is one result of `calloc` (or `udf->root_dir`). Its name is not used again after
`free`, also where the C library hands the same address out again: no pointer is ever compared
with anything but `NULL`, so addresses do not matter. Reading a directory is one step, because
what it writes belongs to its caller alone. The block input may be in any state when it starts.
-/

namespace UdfRead

open CModel

variable {σ Dir Tab Caller : Type}

/-- A `struct udf_dir`, or an array of pointers to them. -/
inductive Object (Dir Tab : Type) where
  | dir (d : Dir)
  | tab (t : Tab)
  deriving DecidableEq

/-- A pointer that the callers share: `d->subdirs`, or `t[i]`. -/
inductive Cell (Dir Tab : Type) where
  | subdirs (d : Dir)
  | slot (t : Tab) (i : ℕ)
  deriving DecidableEq

/-- The memory, one field of the objects at a time. -/
structure Memory (Dir Tab : Type) where
  status : Object Dir Tab → Publish.Status
  entries : Dir → List UdfFileIdentifier
  subdirs : Dir → Option Tab
  slot : Tab → ℕ → Option Dir
  size : Tab → ℕ

/-- The object that a cell lies in. -/
def Cell.home : Cell Dir Tab → Object Dir Tab
  | .subdirs d => .dir d
  | .slot t _ => .tab t

namespace Memory

/-- What the shared pointers point to. -/
def cell (m : Memory Dir Tab) : Cell Dir Tab → Option (Object Dir Tab)
  | .subdirs d => (m.subdirs d).map .tab
  | .slot t i => (m.slot t i).map .dir

/-- What can be reached from `udf->root_dir`. -/
def InTree (m : Memory Dir Tab) (root : Dir) : Object Dir Tab → Prop :=
  Publish.Published (.dir root) Cell.home m.cell

variable [DecidableEq Dir] [DecidableEq Tab]

/-- `calloc(num_entries, sizeof(struct udf_dir *))`. -/
@[simps]
def callocSubdirs (m : Memory Dir Tab) (t : Tab) (numEntries : ℕ) : Memory Dir Tab :=
  { m with
    status := Function.update m.status (.tab t) .live
    slot := Function.update m.slot t fun _ => none
    size := Function.update m.size t numEntries }

/-- `calloc(1, sizeof(struct udf_dir))`. -/
@[simps]
def callocSubdir (m : Memory Dir Tab) (d : Dir) : Memory Dir Tab :=
  { m with
    status := Function.update m.status (.dir d) .live
    entries := Function.update m.entries d []
    subdirs := Function.update m.subdirs d none }

@[simps]
def setEntries (m : Memory Dir Tab) (d : Dir) (entries : List UdfFileIdentifier) :
    Memory Dir Tab :=
  { m with entries := Function.update m.entries d entries }

@[simps]
def setSubdirs (m : Memory Dir Tab) (d : Dir) (t : Tab) : Memory Dir Tab :=
  { m with subdirs := Function.update m.subdirs d (some t) }

@[simps]
def setSlot (m : Memory Dir Tab) (t : Tab) (i : ℕ) (d : Dir) : Memory Dir Tab :=
  { m with slot := Function.update m.slot t (Function.update (m.slot t) i (some d)) }

@[simps]
def free (m : Memory Dir Tab) (o : Object Dir Tab) : Memory Dir Tab :=
  { m with status := Function.update m.status o .freed }

end Memory

/-- The arguments of a call of `_cache_subdir`. -/
structure Call (Dir : Type) where
  dir : Dir
  index : ℕ
  deriving DecidableEq

/-- The step of `_cache_subdir` that comes next. The arguments are its local variables; `slot` is
an expression `dir->subdirs[index]`, whose two loads are two steps. -/
inductive At (Dir Tab : Type) where
  | flags
  | ifSubdirs
  | callocSubdirs
  | casSubdirs (subdirs : Tab)
  | freeSubdirs (subdirs : Tab)
  | ifSlot
  | ifSlotOf (subdirs : Tab)
  | callocSubdir
  | readDir (subdir : Dir)
  | cleanUnread (subdir : Dir)
  | freeUnread (subdir : Dir)
  | slotAddr (subdir : Dir)
  | casSlot (subdirs : Tab) (subdir : Dir)
  | cleanLost (subdir : Dir)
  | freeLost (subdir : Dir)
  | loadSlot
  | loadSlotOf (subdirs : Tab)
  | returned (result : Option Dir)
  | fault
  deriving DecidableEq

/-- The object that nobody but the caller knows of. -/
@[simp]
def At.held : At Dir Tab → Option (Object Dir Tab)
  | .casSubdirs t | .freeSubdirs t => some (.tab t)
  | .readDir d | .cleanUnread d | .freeUnread d | .slotAddr d | .casSlot _ d
  | .cleanLost d | .freeLost d => some (.dir d)
  | _ => none

/-- The next step follows a `NULL` pointer, touches an object that is not allocated, or goes past
the end of an array. -/
def Memory.Faults (m : Memory Dir Tab) (c : Call Dir) : At Dir Tab → Prop
  | .flags => m.status (.dir c.dir) ≠ .live ∨ (m.entries c.dir).length ≤ c.index
  | .ifSubdirs | .callocSubdirs | .casSubdirs _ => m.status (.dir c.dir) ≠ .live
  | .freeSubdirs t => m.status (.tab t) ≠ .live
  | .ifSlot | .loadSlot => m.status (.dir c.dir) ≠ .live ∨ m.subdirs c.dir = none
  | .ifSlotOf t | .loadSlotOf t => m.status (.tab t) ≠ .live ∨ m.size t ≤ c.index
  | .callocSubdir => False
  | .readDir d =>
    m.status (.dir c.dir) ≠ .live ∨ (m.entries c.dir).length ≤ c.index ∨ m.status (.dir d) ≠ .live
  | .cleanUnread d | .freeUnread d | .cleanLost d | .freeLost d => m.status (.dir d) ≠ .live
  | .slotAddr _ => m.status (.dir c.dir) ≠ .live ∨ m.subdirs c.dir = none
  | .casSlot t _ => m.status (.tab t) ≠ .live ∨ m.size t ≤ c.index
  | .returned _ | .fault => False

section

variable (I : BlockInput σ) (part : UdfPartitions) [DecidableEq Dir] [DecidableEq Tab]

/-- One step of a call of `_cache_subdir`. -/
inductive CacheStep (c : Call Dir) :
    Memory Dir Tab → At Dir Tab → Memory Dir Tab → At Dir Tab → Prop where
  | notDir {m fid} :
      (m.entries c.dir)[c.index]? = some fid → fid.characteristic &&& charFlagDir = 0 →
      CacheStep c m .flags m (.returned none)
  | isDir {m fid} :
      (m.entries c.dir)[c.index]? = some fid → fid.characteristic &&& charFlagDir ≠ 0 →
      CacheStep c m .flags m .ifSubdirs
  | noSubdirs {m} : m.subdirs c.dir = none → CacheStep c m .ifSubdirs m .callocSubdirs
  | hasSubdirs {m t} : m.subdirs c.dir = some t → CacheStep c m .ifSubdirs m .ifSlot
  | callocSubdirs {m t} : m.status (.tab t) = .unused →
      CacheStep c m .callocSubdirs (m.callocSubdirs t (m.entries c.dir).length) (.casSubdirs t)
  | noSubdirsMemory {m} : CacheStep c m .callocSubdirs m (.returned none)
  | casSubdirs {m t} : m.subdirs c.dir = none →
      CacheStep c m (.casSubdirs t) (m.setSubdirs c.dir t) .ifSlot
  | casSubdirsLost {m t t'} : m.subdirs c.dir = some t' →
      CacheStep c m (.casSubdirs t) m (.freeSubdirs t)
  | freeSubdirs {m t} : CacheStep c m (.freeSubdirs t) (m.free (.tab t)) .ifSlot
  | ifSlot {m t} : m.subdirs c.dir = some t → CacheStep c m .ifSlot m (.ifSlotOf t)
  | noSlot {m t} : m.slot t c.index = none → CacheStep c m (.ifSlotOf t) m .callocSubdir
  | hasSlot {m t d} : m.slot t c.index = some d → CacheStep c m (.ifSlotOf t) m .loadSlot
  | callocSubdir {m d} : m.status (.dir d) = .unused →
      CacheStep c m .callocSubdir (m.callocSubdir d) (.readDir d)
  | noSubdirMemory {m} : CacheStep c m .callocSubdir m (.returned none)
  | readDir {m d fid fuel st result entries st'} :
      (m.entries c.dir)[c.index]? = some fid →
      udfReadDir I fuel part fid.icb (m.entries d) st = .ok ((result, entries), st') →
      0 ≤ result →
      CacheStep c m (.readDir d) (m.setEntries d entries) (.slotAddr d)
  | readDirFailed {m d fid fuel st result entries st'} :
      (m.entries c.dir)[c.index]? = some fid →
      udfReadDir I fuel part fid.icb (m.entries d) st = .ok ((result, entries), st') →
      result < 0 →
      CacheStep c m (.readDir d) (m.setEntries d entries) (.cleanUnread d)
  | cleanUnread {m d} : CacheStep c m (.cleanUnread d) (m.setEntries d []) (.freeUnread d)
  | freeUnread {m d} : CacheStep c m (.freeUnread d) (m.free (.dir d)) (.returned none)
  | slotAddr {m t d} : m.subdirs c.dir = some t →
      CacheStep c m (.slotAddr d) m (.casSlot t d)
  | casSlot {m t d} : m.slot t c.index = none →
      CacheStep c m (.casSlot t d) (m.setSlot t c.index d) .loadSlot
  | casSlotLost {m t d d'} : m.slot t c.index = some d' →
      CacheStep c m (.casSlot t d) m (.cleanLost d)
  | cleanLost {m d} : CacheStep c m (.cleanLost d) (m.setEntries d []) (.freeLost d)
  | freeLost {m d} : CacheStep c m (.freeLost d) (m.free (.dir d)) .loadSlot
  | loadSlot {m t} : m.subdirs c.dir = some t → CacheStep c m .loadSlot m (.loadSlotOf t)
  | loadSlotOf {m t} : CacheStep c m (.loadSlotOf t) m (.returned (m.slot t c.index))
  | fault {m a} : m.Faults c a → CacheStep c m a m .fault

end

/-- The callers, each at a step of its call, and the memory they share. -/
structure SharedCache (Dir Tab Caller : Type) where
  memory : Memory Dir Tab
  callers : Caller → Option (Call Dir × At Dir Tab)

inductive CacheEvent (Dir Caller : Type) where
  | call (p : Caller) (c : Call Dir)
  | step (p : Caller)
  | ret (p : Caller) (c : Call Dir) (result : Option Dir)

namespace SharedCache

/-- `udf->root_dir` has been read, and nothing has been looked up in it. -/
structure Opened (s : SharedCache Dir Tab Caller) (root : Dir) : Prop where
  idle : ∀ p, s.callers p = none
  root_live : s.memory.status (.dir root) = .live
  unused : ∀ o, o ≠ .dir root → s.memory.status o = .unused
  no_subdirs : ∀ d, s.memory.subdirs d = none
  no_slot : ∀ t i, s.memory.slot t i = none

/-- A step of the system. A caller is given `udf->root_dir` or a directory found in the tree, and
the index of one of its entries. -/
inductive Step (I : BlockInput σ) (part : UdfPartitions) (root : Dir)
    [DecidableEq Dir] [DecidableEq Tab] [DecidableEq Caller] :
    SharedCache Dir Tab Caller → CacheEvent Dir Caller → SharedCache Dir Tab Caller → Prop where
  | call {s p c} : s.callers p = none → s.memory.InTree root (.dir c.dir) →
      c.index < (s.memory.entries c.dir).length →
      Step I part root s (.call p c)
        { s with callers := Function.update s.callers p (some (c, .flags)) }
  | step {s p c a m' a'} : s.callers p = some (c, a) →
      CacheStep I part c s.memory a m' a' →
      Step I part root s (.step p)
        { memory := m', callers := Function.update s.callers p (some (c, a')) }
  | ret {s p c r} : s.callers p = some (c, .returned r) →
      Step I part root s (.ret p c r)
        { s with callers := Function.update s.callers p none }

end SharedCache

end UdfRead
