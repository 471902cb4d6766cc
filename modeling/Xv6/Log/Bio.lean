import Xv6.Log.Reservation

namespace Xv6.Logging

open BitVec Function List

/-!
# Buffer cache, log and disk

`bio.c` and the part of `log.c` that moves blocks, over an arbitrary type of block contents.

* `Buf`, `Cache` — the buffers and the disk, with `bget`, `iderw`, `bwrite` and the rest of
  `bio.c`;
* `Sys` — these with the log and where every process stands;
* `Instr`, `exec` — what the code does between two points where another process may run:
  `commit` and `recover_from_log` are sequences of these;
* `Call`, `Act`, `step` — the calls of an operation, the next instruction of a process, and
  the crash of the machine.
-/

/-- A block of a device: `dev` and `blockno`. -/
abbrev Key := Nat × Nat

/-- A buffer, by its place in `bcache.buf`. -/
abbrev BufId := Fin NBUF

/-- Where the log lies: `log.dev`, which is not 0, and `log.start`. -/
structure Geo where
  dev : Nat
  start : Nat
  dev_pos : 1 ≤ dev

namespace Geo

/-- `log.size`: what `mkfs` writes to `sb.nlog`. -/
def size (_ : Geo) : Nat := nlog

/-- The header block of the log. -/
def head (G : Geo) : Key := (G.dev, G.start)

/-- The block of the log that holds entry `tail`. -/
def slot (G : Geo) (tail : Nat) : Key := (G.dev, G.start + tail + 1)

/-- The block of the log's device with number `b`. -/
def home (G : Geo) (b : Nat) : Key := (G.dev, b)

/-- The block is not one of the log's own. -/
def Home (G : Geo) (κ : Key) : Prop :=
  ¬ (κ.1 = G.dev ∧ G.start ≤ κ.2 ∧ κ.2 < G.start + G.size)

instance (G : Geo) (κ : Key) : Decidable (G.Home κ) := by
  unfold Home
  infer_instance

end Geo

/-- Contents of a block, as far as the log looks into them: a header is read from the first
    bytes, and written over them. -/
class BlockData (α : Type) where
  readHead : α → List Nat
  writeHead : List Nat → α → α
  read_write : ∀ l x, l.length ≤ LOGSIZE → (∀ b ∈ l, b < FSSIZE) → readHead (writeHead l x) = l

open BlockData

/-- A block of `BSIZE` bytes as words. -/
abbrev Words := Fin 128 → BitVec 32

namespace Words

/-- The header in a block: the word `n`, and then the words of `block`. -/
def readHead (x : Words) : List Nat :=
  (List.range (x 0).toInt.toNat).map fun i => (x (Fin.ofNat 128 (i + 1))).toNat

/-- The header is written over the first words of a block. -/
def writeHead (l : List Nat) (x : Words) : Words := fun i =>
  if i = 0 then BitVec.ofNat 32 l.length
  else if h : i.1 - 1 < l.length then BitVec.ofNat 32 (l.get ⟨i.1 - 1, h⟩) else x i

theorem writeHead_zero (l : List Nat) (x : Words) :
    writeHead l x 0 = BitVec.ofNat 32 l.length := if_pos rfl

theorem writeHead_entry {l : List Nat} (x : Words) (hl : l.length ≤ LOGSIZE) {i : Nat}
    (hi : i < l.length) : writeHead l x (Fin.ofNat 128 (i + 1)) = BitVec.ofNat 32 l[i] := by
  have hlen : l.length ≤ 30 := hl
  have hval : (Fin.ofNat 128 (i + 1)).1 = i + 1 := Nat.mod_eq_of_lt (by omega)
  have hne : Fin.ofNat 128 (i + 1) ≠ 0 := fun h0 => by
    rw [h0] at hval
    cases hval
  have hsub : (Fin.ofNat 128 (i + 1)).1 - 1 = i := by omega
  have hlt : (Fin.ofNat 128 (i + 1)).1 - 1 < l.length := by omega
  unfold writeHead
  rw [if_neg hne, dif_pos hlt, get_eq_getElem]
  simp only [hsub]

/-- The header reads back. -/
theorem readHead_writeHead (l : List Nat) (x : Words) (hl : l.length ≤ LOGSIZE)
    (hb : ∀ b ∈ l, b < FSSIZE) : readHead (writeHead l x) = l := by
  have hlen : l.length ≤ 30 := hl
  have hn : (writeHead l x 0).toInt.toNat = l.length := by
    have hmod : l.length % 2 ^ 32 = l.length := Nat.mod_eq_of_lt (by omega)
    rw [writeHead_zero, toInt_eq_toNat_of_lt (by rw [toNat_ofNat]; omega), toNat_ofNat, hmod]
    rfl
  refine ext_getElem ?_ fun i h1 h2 => ?_
  · rw [readHead, length_map, length_range, hn]
  · have hlt : l[i] < 1000 := hb l[i] (getElem_mem h2)
    simp only [readHead, getElem_map, getElem_range, writeHead_entry x hl h2, toNat_ofNat]
    omega

end Words

instance : BlockData Words where
  readHead := Words.readHead
  writeHead := Words.writeHead
  read_write := Words.readHead_writeHead

/-- `struct buf`; `unsaved` records that the data were changed and neither logged nor
    written since. -/
structure Buf (P α : Type) where
  key : Key
  valid : Bool
  dirty : Bool
  refcnt : Nat
  lock : Option P
  data : α
  unsaved : Bool

/-- The panics of `bio.c`, `ide.c` and `log.c`. -/
inductive BioPanic where
  | log (e : Panic)
  /-- `panic("bget: no buffers")` -/
  | noBuffers
  /-- `panic("bwrite")` -/
  | bwrite
  /-- `panic("brelse")` -/
  | brelse
  /-- `panic("iderw: buf not locked")` -/
  | notLocked
  /-- `panic("iderw: nothing to do")` -/
  | nothingToDo
  /-- `panic("incorrect blockno")` -/
  | blockno
  deriving DecidableEq, Repr

/-- What a process does without interruption.  A buffer is named by the block it was asked
    for; the pointer is in `Cache.ptr`. -/
inductive Instr where
  /-- `bget` up to `release(&bcache.lock)` -/
  | get (κ : Key)
  /-- `acquiresleep(&b->lock)` in `bget` -/
  | lock (κ : Key)
  /-- The rest of `bread`. -/
  | fill (κ : Key)
  /-- `memmove(dst->data, src->data, BSIZE)` -/
  | copy (dst src : Key)
  /-- `bwrite` -/
  | write (κ : Key)
  /-- `brelse` up to `releasesleep` -/
  | unlock (κ : Key)
  /-- The rest of `brelse`. -/
  | put (κ : Key)
  /-- The rest of `log_write`, once the lock is taken. -/
  | append (κ : Key)
  /-- The loop of `read_head`. -/
  | getHead
  /-- The loop of `write_head`. -/
  | setHead
  /-- `commit` is entered. -/
  | commit
  /-- The loop of `write_log` comes to `tail`. -/
  | writeLog (tail : Nat)
  /-- The loop of `install_trans` comes to `tail`. -/
  | install (tail : Nat)
  /-- `log.lh.n = 0` -/
  | clear
  /-- The end of `end_op`, after `commit`. -/
  | finish
  /-- `recover_from_log` returns. -/
  | ready
  deriving DecidableEq, Repr

/-- The buffers and the disk.  `ptr p κ` is the buffer that process `p` got for block `κ`. -/
structure Cache (P α : Type) where
  buf : BufId → Buf P α
  /-- The list of buffers from `bcache.head.next`. -/
  mru : List BufId
  disk : Key → α
  ptr : P → Key → Option BufId

variable {P α : Type} [DecidableEq P]

/-! ### `bio.c` -/

namespace Cache

/-- Buffer `i` is changed. -/
def setBuf (c : Cache P α) (i : BufId) (b : Buf P α) : Cache P α :=
  { c with buf := update c.buf i b }

/-- Block `κ` of the disk is written. -/
def setDisk (c : Cache P α) (κ : Key) (v : α) : Cache P α := { c with disk := update c.disk κ v }

/-- Process `p` remembers buffer `i`, or no longer any, for block `κ`. -/
def setPtr (c : Cache P α) (p : P) (κ : Key) (i : Option BufId) : Cache P α :=
  { c with ptr := update c.ptr p (update (c.ptr p) κ i) }

/-- The pointer that `p` has for `κ` is followed. -/
def withBuf {β : Type} (c : Cache P α) (p : P) (κ : Key) (f : BufId → Outcome BioPanic β) :
    Outcome BioPanic β :=
  match c.ptr p κ with
  | some i => f i
  | none => .wild

/-- `bget` up to `release(&bcache.lock)`: the buffer of the block, or else the least recently
    used one that is neither referenced nor dirty. -/
def bget (c : Cache P α) (p : P) (κ : Key) : Outcome BioPanic (Cache P α) :=
  match c.mru.find? (fun i => (c.buf i).key = κ) with
  | some i =>
    .ok ((c.setBuf i { c.buf i with refcnt := (c.buf i).refcnt + 1 }).setPtr p κ (some i))
  | none =>
    match c.mru.reverse.find? (fun i => (c.buf i).refcnt = 0 ∧ (c.buf i).dirty = false) with
    | some i =>
      .ok ((c.setBuf i { c.buf i with key := κ, valid := false, dirty := false, refcnt := 1,
                                      unsaved := false }).setPtr p κ (some i))
    | none => .panic .noBuffers

/-- `acquiresleep(&b->lock)`; who has to wait does not get on. -/
def acquiresleep (c : Cache P α) (p : P) (κ : Key) : Outcome BioPanic (Cache P α) :=
  c.withBuf p κ fun i =>
    if (c.buf i).lock = none then .ok (c.setBuf i { c.buf i with lock := some p }) else .hang

/-- `iderw`: a dirty buffer is written, one that is not valid is read. -/
def iderw (c : Cache P α) (p : P) (i : BufId) : Outcome BioPanic (Cache P α) :=
  let b := c.buf i
  if b.lock ≠ some p then .panic .notLocked
  else if b.valid ∧ b.dirty = false then .panic .nothingToDo
  else if b.key.2 ≥ FSSIZE then .panic .blockno
  else if b.dirty then
    .ok ((c.setBuf i { b with valid := true, dirty := false, unsaved := false }).setDisk
      b.key b.data)
  else .ok (c.setBuf i { b with valid := true, data := c.disk b.key })

/-- `bread` after `bget`. -/
def fill (c : Cache P α) (p : P) (κ : Key) : Outcome BioPanic (Cache P α) :=
  c.withBuf p κ fun i => if (c.buf i).valid then .ok c else c.iderw p i

/-- The data of a buffer are changed by `f`. -/
def modify (c : Cache P α) (p : P) (κ : Key) (f : α → α) : Outcome BioPanic (Cache P α) :=
  c.withBuf p κ fun i =>
    .ok (c.setBuf i { c.buf i with data := f (c.buf i).data, unsaved := true })

/-- The data of a buffer. -/
def read (c : Cache P α) (p : P) (κ : Key) : Outcome BioPanic α :=
  c.withBuf p κ fun i => .ok (c.buf i).data

/-- `bwrite` -/
def bwrite (c : Cache P α) (p : P) (κ : Key) : Outcome BioPanic (Cache P α) :=
  c.withBuf p κ fun i =>
    if (c.buf i).lock = some p then (c.setBuf i { c.buf i with dirty := true }).iderw p i
    else .panic .bwrite

/-- `b->flags |= B_DIRTY` in `log_write` -/
def pin (c : Cache P α) (p : P) (κ : Key) : Outcome BioPanic (Cache P α) :=
  c.withBuf p κ fun i => .ok (c.setBuf i { c.buf i with dirty := true, unsaved := false })

/-- `brelse` up to `releasesleep`. -/
def releasesleep (c : Cache P α) (p : P) (κ : Key) : Outcome BioPanic (Cache P α) :=
  c.withBuf p κ fun i =>
    if (c.buf i).lock = some p then .ok (c.setBuf i { c.buf i with lock := none })
    else .panic .brelse

/-- The rest of `brelse`: the last one to let go moves the buffer to the front. -/
def bput (c : Cache P α) (p : P) (κ : Key) : Outcome BioPanic (Cache P α) :=
  c.withBuf p κ fun i =>
    let b := c.buf i
    .ok { (c.setBuf i { b with refcnt := b.refcnt - 1 }).setPtr p κ none with
          mru := if b.refcnt - 1 = 0 then i :: c.mru.erase i else c.mru }

/-- The cache after `binit`; `junk` is what is in memory then. -/
def binit (disk : Key → α) (junk : α) : Cache P α where
  buf := fun _ => { key := (0, 0), valid := false, dirty := false, refcnt := 0, lock := none,
                    data := junk, unsaved := false }
  mru := (List.finRange NBUF).reverse
  disk
  ptr := fun _ _ => none

end Cache

/-! ### The programs of `log.c` -/

/-- `bread` -/
def bread (κ : Key) : List Instr := [.get κ, .lock κ, .fill κ]

/-- `brelse` -/
def brelse (κ : Key) : List Instr := [.unlock κ, .put κ]

variable (G : Geo)

/-- The body of the loop of `write_log`, for entry `tail` with block `b`. -/
def writeLogBody (tail b : Nat) : List Instr :=
  bread (G.slot tail) ++ bread (G.home b) ++ [.copy (G.slot tail) (G.home b), .write (G.slot tail)]
    ++ brelse (G.home b) ++ brelse (G.slot tail)

/-- The body of the loop of `install_trans`. -/
def installBody (tail b : Nat) : List Instr :=
  bread (G.slot tail) ++ bread (G.home b) ++ [.copy (G.home b) (G.slot tail), .write (G.home b)]
    ++ brelse (G.slot tail) ++ brelse (G.home b)

/-- `read_head` -/
def readHeadCode : List Instr := bread G.head ++ [.getHead] ++ brelse G.head

/-- `write_head` -/
def writeHeadCode : List Instr := bread G.head ++ [.setHead, .write G.head] ++ brelse G.head

/-- `commit`, with something to commit. -/
def commitCode : List Instr :=
  [.writeLog 0] ++ writeHeadCode G ++ [.install 0, .clear] ++ writeHeadCode G

/-- `recover_from_log` -/
def recoverCode : List Instr :=
  readHeadCode G ++ [.install 0, .clear] ++ writeHeadCode G ++ [.ready]

/-! ### Steps -/

/-- The cache, the log and the processes: `todo p` is what process `p` is about to do, and
    `booting` the process that runs `initlog` after a start.  The last three are records of
    what happened: `last` the contents that operations stored last, `snap` these contents when
    the last transaction committed, and `txs` what the committed transactions wrote. -/
structure Sys (P α : Type) where
  cache : Cache P α
  ctl : State P
  todo : P → List Instr
  booting : Option P
  last : Key → α
  snap : Key → α
  txs : List (List (Nat × α))

namespace Sys

/-- Process `p` has `T` to do. -/
def setTodo (s : Sys P α) (p : P) (T : List Instr) : Sys P α :=
  { s with todo := update s.todo p T }

/-- A step of the log's protocol. -/
def logStep (s : Sys P α) (a : Logging.Act P) : Outcome BioPanic (Sys P α) := do
  let ctl ← (Logging.step s.ctl a).mapPanic .log
  return { s with ctl }

variable [BlockData α]

/-- A header that is not empty has reached the disk: the transaction is committed. -/
def record (G : Geo) (s : Sys P α) (κ : Key) : Sys P α :=
  if κ = G.head ∧ readHead (s.cache.disk κ) ≠ [] then
    { s with snap := s.last
             txs := s.txs ++ [s.ctl.log.block.map (fun b => (b, s.last (G.home b)))] }
  else s

/-- One instruction of process `p`, which goes on with `T`. -/
def exec (G : Geo) (s : Sys P α) (p : P) (T : List Instr) : Instr → Outcome BioPanic (Sys P α)
  | .get κ =>
    -- who asks for a block it holds waits for itself in `acquiresleep`
    if s.cache.ptr p κ ≠ none then .hang
    else do
      let cache ← s.cache.bget p κ
      return { s with cache }.setTodo p T
  | .lock κ => do
    let cache ← s.cache.acquiresleep p κ
    return { s with cache }.setTodo p T
  | .fill κ => do
    let cache ← s.cache.fill p κ
    return { s with cache }.setTodo p T
  | .copy dst src => do
    let data ← s.cache.read p src
    let cache ← s.cache.modify p dst (fun _ => data)
    return { s with cache }.setTodo p T
  | .write κ => do
    let cache ← s.cache.bwrite p κ
    return ({ s with cache }.record G κ).setTodo p T
  | .unlock κ => do
    let cache ← s.cache.releasesleep p κ
    return { s with cache }.setTodo p T
  | .put κ => do
    let cache ← s.cache.bput p κ
    return { s with cache }.setTodo p T
  | .append κ => do
    let s ← s.logStep (.append p)
    let cache ← s.cache.pin p κ
    return { s with cache }.setTodo p T
  | .getHead => do
    let data ← s.cache.read p G.head
    return { s with ctl.log.block := readHead data }.setTodo p T
  | .setHead => do
    let cache ← s.cache.modify p G.head (writeHead s.ctl.log.block)
    return { s with cache }.setTodo p T
  | .commit =>
    if s.ctl.log.block = [] then .ok (s.setTodo p (.clear :: T))
    else .ok (s.setTodo p (commitCode G ++ T))
  | .writeLog tail =>
    match s.ctl.log.block[tail]? with
    | some b => .ok (s.setTodo p (writeLogBody G tail b ++ .writeLog (tail + 1) :: T))
    | none => .ok (s.setTodo p T)
  | .install tail =>
    match s.ctl.log.block[tail]? with
    | some b => .ok (s.setTodo p (installBody G tail b ++ .install (tail + 1) :: T))
    | none => .ok (s.setTodo p T)
  | .clear =>
    if s.booting = some p then .ok ({ s with ctl.log.block := [] }.setTodo p T)
    else do
      let s ← s.logStep (.clear p)
      return s.setTodo p T
  | .finish => do
    let s ← s.logStep (.finish p)
    return s.setTodo p T
  | .ready => .ok ({ s with booting := none }.setTodo p T)

/-- Process `p` holds the lock of the buffer of block `κ`, which it has read. -/
def Holding (s : Sys P α) (p : P) (κ : Key) : Prop :=
  ∃ i, s.cache.ptr p κ = some i ∧ (s.cache.buf i).lock = some p ∧ (s.cache.buf i).valid = true

instance (s : Sys P α) (p : P) (κ : Key) : Decidable (s.Holding p κ) :=
  match h : s.cache.ptr p κ with
  | some i => decidable_of_iff ((s.cache.buf i).lock = some p ∧ (s.cache.buf i).valid = true)
      (by simp [Holding, h])
  | none => .isFalse (by simp [Holding, h])

/-- What an operation calls. -/
inductive Call (α : Type) where
  | bread (κ : Key)
  /-- The data of a block that was read are changed. -/
  | store (κ : Key) (v : α)
  | logWrite (κ : Key)
  | bwrite (κ : Key)
  | brelse (κ : Key)
  | beginOp
  | endOp

/-- A call of a process that has nothing else to do.  Data are changed, and blocks logged,
    under the lock. -/
def call (G : Geo) (s : Sys P α) (p : P) : Call α → Outcome BioPanic (Sys P α)
  | .bread κ => .ok (s.setTodo p (bread κ))
  | .store κ v =>
    if s.Holding p κ then do
      let cache ← s.cache.modify p κ (fun _ => v)
      return { s with cache, last := update s.last κ v }
    else .hang
  | .logWrite κ =>
    if s.Holding p κ then do
      let s ← s.logStep (.check p κ.2)
      return s.setTodo p [.append κ]
    else .hang
  | .bwrite κ => do
    let cache ← s.cache.bwrite p κ
    return { s with cache }.record G κ
  | .brelse κ => .ok (s.setTodo p (brelse κ))
  | .beginOp => s.logStep (.begin p)
  | .endOp => do
    let s ← s.logStep (.endOp p)
    if (s.ctl.proc p).pc = .committing then return s.setTodo p [.commit, .finish]
    else return s

/-- The state in which the machine starts: nothing is cached, and process `p` is about to
    recover from the log. -/
def boot (G : Geo) (junk : α) (p : P) (disk snap : Key → α) (txs : List (List (Nat × α))) :
    Sys P α where
  cache := .binit disk junk
  ctl := initlog G.size
  todo := fun q => if q = p then recoverCode G else []
  booting := some p
  last := snap
  snap
  txs

/-- A step of the machine. -/
inductive Act (P α : Type) where
  | call (p : P) (c : Call α)
  | run (p : P)
  /-- The machine stops and starts again. -/
  | crash (p : P) (junk : α)

/-- One step; a call is made by a process that has nothing to do, after the start. -/
def step (G : Geo) (s : Sys P α) : Act P α → Outcome BioPanic (Sys P α)
  | .call p c => if s.booting = none ∧ s.todo p = [] then s.call G p c else .hang
  | .run p =>
    match s.todo p with
    | [] => .hang
    | x :: T => s.exec G p T x
  | .crash p junk => .ok (boot G junk p s.cache.disk s.snap s.txs)

end Sys

end Xv6.Logging
