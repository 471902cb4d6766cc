import Xv6.Lib.Queue
import Xv6.Lib.Words
import Xv6.Param
import Xv6.Sync.SleepLock
import Mathlib.Data.Fintype.Basic

namespace Xv6.Sync

open Function List Monitor Queue Run

/-!
# The queue of the disk driver

`iderw`, `idestart` and `ideintr` of `ide.c`, by any number of processes, with the disk that works
on one request and raises an interrupt when it is done.  The spin lock is `idelock`.  The buffers
are pointers into an arbitrary type `B`, and their contents have an arbitrary type `α`.

* `IdeBuf`, `Ide`, `idestart`, `ideCode` — the functions;
* `IdeAct`, `ideStep`, `IdeRules` — a step of a process, the end of a transfer, and what the holder
  of a buffer does with it outside `iderw`;
* `Ide.InOrder`, `Ide.Running` — the queue, and the request that the disk works on;
* `ide_queue` — requests are started and completed in the order in which they are appended, and
  `iderw` returns when its own request has been completed.
-/

/-- `SECTOR_SIZE` -/
def SECTOR_SIZE : Nat := 512

/-- `sector_per_block` -/
def sectorPerBlock : Nat := BSIZE / SECTOR_SIZE

/-- The panics of `ide.c`. -/
inductive IdePanic where
  /-- `panic("idestart")` -/
  | idestart
  /-- `panic("incorrect blockno")` -/
  | blockno
  /-- `panic("iderw: buf not locked")` -/
  | notLocked
  /-- `panic("iderw: nothing to do")` -/
  | nothingToDo
  /-- `panic("iderw: ide disk 1 not present")` -/
  | noDisk1
  deriving DecidableEq

/-- `struct buf`, as far as the driver looks at it: `valid` and `dirty` are the flags. -/
structure IdeBuf (P B α : Type) where
  valid : Bool
  dirty : Bool
  dev : Word
  blockno : Word
  lock : SleepLock P
  qnext : Option B
  data : α

/-- What the driver writes to the ports of the controller: the disk, the sector, and the data of a
    write. -/
structure Request (α : Type) where
  disk1 : Bool
  sector : Word
  out : Option α

/-- The controller: it works on a request, or has finished it and has raised an interrupt that `q`
    is going to handle. -/
inductive Controller (P α : Type) where
  | idle
  | busy (req : Request α)
  | finished (q : P) (req : Request α)

variable {P B α : Type}
variable {q : P} {b : B} {req : Request α} {pp : Option B}

namespace IdeBuf

/-- `(b->flags & (B_VALID|B_DIRTY)) == B_VALID` -/
def Synced (v : IdeBuf P B α) : Prop := v.valid = true ∧ v.dirty = false

instance (v : IdeBuf P B α) : Decidable v.Synced := inferInstanceAs (Decidable (_ ∧ _))

/-- What `idestart` asks the controller for. -/
def request (v : IdeBuf P B α) : Request α where
  disk1 := v.dev &&& 1 = 1
  sector := v.blockno * BitVec.ofNat 32 sectorPerBlock
  out := if v.dirty then some v.data else none

end IdeBuf

/-- The buffers, the queue, the controller with the two disks, and records of the requests: the
    buffers in the order in which they were appended, started and completed. -/
structure Ide (P B α : Type) where
  buf : B → IdeBuf P B α
  idequeue : Option B
  havedisk1 : Bool
  ctl : Controller P α
  disk : Bool → Word → α
  appended : List B
  started : List B
  completed : List B

namespace Ide

/-- `idestart` -/
def idestart (x : Ide P B α) : Option B → Except IdePanic (Ide P B α)
  | none => .error .idestart
  | some b =>
    if FSSIZE ≤ (x.buf b).blockno.toNat then .error .blockno
    else if 7 < sectorPerBlock then .error .idestart
    else .ok { x with ctl := .busy (x.buf b).request, started := x.started ++ [b] }

variable [DecidableEq B]

/-- `b->qnext = n` -/
def setNext (x : Ide P B α) (b : B) (n : Option B) : Ide P B α :=
  { x with buf := update x.buf b { x.buf b with qnext := n } }

/-- The pointers from buffer to buffer. -/
def next (x : Ide P B α) (b : B) : Option B := (x.buf b).qnext

/-- `*pp = b`, where `pp` is `&idequeue` or `&c->qnext` -/
def link (x : Ide P B α) (b : B) : Option B → Ide P B α
  | none => { x with idequeue := some b, appended := x.appended ++ [b] }
  | some c => { x.setNext c (some b) with appended := x.appended ++ [b] }

/-- What `insl` finds at the port. -/
def port (x : Ide P B α) (old : α) : α :=
  match x.ctl with
  | .finished _ req => x.disk req.disk1 req.sector
  | _ => old

/-- `ideintr` takes the first buffer from the queue. -/
def pop (x : Ide P B α) (b : B) : Ide P B α :=
  { x with
    idequeue := (x.buf b).qnext
    buf := update x.buf b { x.buf b with
      data := if (x.buf b).dirty then (x.buf b).data else x.port (x.buf b).data
      valid := true
      dirty := false }
    ctl := .idle
    completed := x.completed ++ [b] }

/-- The holder of a buffer changes it.  `qnext` is for the driver only. -/
def touch (x : Ide P B α) (b : B) (v : IdeBuf P B α) : Ide P B α :=
  { x with buf := update x.buf b { v with qnext := (x.buf b).qnext } }

/-- The disk has carried out the request, and `q` is going to handle the interrupt. -/
def complete (x : Ide P B α) (req : Request α) (q : P) : Ide P B α :=
  { x with
    ctl := .finished q req
    disk := match req.out with
      | some d => update x.disk req.disk1 (update (x.disk req.disk1) req.sector d)
      | none => x.disk }

/-- The checks at the start of `iderw`, called by process `p`. -/
def check [DecidableEq P] (x : Ide P B α) (p : P) (b : B) : Except IdePanic Unit :=
  if holdingsleep (x.buf b).lock p = false then .error .notLocked
  else if (x.buf b).Synced then .error .nothingToDo
  else if (x.buf b).dev ≠ 0 ∧ x.havedisk1 = false then .error .noDisk1
  else .ok ()

end Ide

/-- Where a process is in the functions.  `k` is the number of its request. -/
inductive IdePoint (B : Type) where
  /-- After `acquire` in `iderw`. -/
  | rw (b : B)
  /-- At the loop of `iderw`. -/
  | walk (b : B) (pp : Option B)
  /-- After `*pp = b`. -/
  | start (b : B) (k : Nat)
  /-- At the second loop of `iderw`. -/
  | wait (b : B) (k : Nat)
  /-- After `acquire` in `ideintr`. -/
  | intr
  /-- Before `wakeup` in `ideintr`. -/
  | wake (b : B)
  /-- After `wakeup` in `ideintr`. -/
  | next
  /-- Before the last `release` in `ideintr`. -/
  | done
  /-- In `panic`, which does not return, called from `iderw` for a buffer or from `ideintr`. -/
  | halt (e : IdePanic) (o : Option B)
  deriving DecidableEq

section Code

variable [DecidableEq B]

/-- `idestart`, from where one goes on at `l`. -/
def startAt (x : Ide P B α) (b : B) (l : IdePoint B) (o : Option B) :
    Move (Ide P B α) (IdePoint B) B (Option B) :=
  match x.idestart (some b) with
  | .ok x' => .store x' l
  | .error e => .store x (.halt e o)

/-- What a process does next with `idelock`.  Who waits for a buffer sleeps on it. -/
def ideCode : Code P (Ide P B α) (IdePoint B) B (Option B)
  | _, x, _, .rw b => .store (x.setNext b none) (.walk b none)
  | _, x, _, .walk b pp =>
    match load x.next x.idequeue pp with
    | some c => .store x (.walk b (some c))
    | none => .store (x.link b pp) (.start b x.appended.length)
  | _, x, _, .start b k =>
    if x.idequeue = some b then startAt x b (.wait b k) (some b) else .store x (.wait b k)
  | _, x, _, .wait b k =>
    if (x.buf b).Synced then .leave (some b) else .sleep b (.wait b k)
  | _, x, _, .intr =>
    match x.idequeue with
    | none => .leave none
    | some b => .store (x.pop b) (.wake b)
  | _, _, _, .wake b => .wakeup b .next
  | _, x, _, .next =>
    match x.idequeue with
    | none => .leave none
    | some b => startAt x b .done none
  | _, _, _, .done => .leave none
  | _, x, _, .halt e o => .store x (.halt e o)

end Code

/-- The processes, the queue and the disks. -/
abbrev IdeState (P B α : Type) := State P (Ide P B α) (IdePoint B) B (Option B)

/-- A process calls, runs or is killed; the holder of a buffer changes it; or the disk finishes its
    request, and `q` is going to handle the interrupt. -/
inductive IdeAct (P B α : Type) where
  | act (a : Act P (IdePoint B))
  | touch (b : B) (v : IdeBuf P B α)
  | complete (q : P)

/-- The process is in `iderw` for the buffer. -/
def InRw (b : B) : Option B ⊕ IdePoint B → Prop
  | .inr (.rw c) | .inr (.walk c _) | .inr (.start c _) | .inr (.wait c _)
  | .inr (.halt _ (some c)) => c = b
  | _ => False

instance [DecidableEq B] (b : B) (g : Option B ⊕ IdePoint B) : Decidable (InRw b g) := by
  unfold InRw
  split <;> infer_instance

section

variable [DecidableEq P] [DecidableEq B]

/-- One step. -/
def ideStep (s : IdeState P B α) : IdeAct P B α → Outcome Empty (IdeState P B α)
  | .act a => s.step ideCode a
  | .touch b v => .ok { s with data := s.data.touch b v }
  | .complete q =>
    match s.data.ctl with
    | .busy req => .ok { s with data := s.data.complete req q }
    | _ => .hang

/-- The checks of `iderw` are passed, or the call would not get beyond them; `ideintr` is called for
    an interrupt that the disk has raised; and while a process is in `iderw` for a buffer, which it
    has locked, nobody else changes the buffer. -/
def IdeRules (s : IdeState P B α) : IdeAct P B α → Prop
  | .act (.enter p (.rw b)) => s.data.check p b = .ok ()
  | .act (.enter p .intr) => ∃ req, s.data.ctl = .finished p req
  | .act (.enter _ _) => False
  | .act (.run _) | .act (.kill _) => True
  | .touch b _ => ∀ p, ¬ InRw b (s.stage p).place
  | .complete _ => True

end

/-- After `ideinit`: nothing was asked for yet. -/
def ideStart (buf : B → IdeBuf P B α) (havedisk1 : Bool) (disk : Bool → Word → α)
    (killed : P → Bool) : IdeState P B α :=
  ⟨none, none, ⟨buf, none, havedisk1, .idle, disk, [], [], []⟩, fun _ => .out none, killed⟩

/-! ### The queue and the disk -/

namespace Ide

/-- The process has locked the buffer. -/
def Holds [DecidableEq P] (x : Ide P B α) (p : P) (b : B) : Prop :=
  holdingsleep (x.buf b).lock p = true

/-- A lock has one holder. -/
theorem Holds.unique [DecidableEq P] {x : Ide P B α} {p : P} (hp : x.Holds p b) (hq : x.Holds q b) :
    p = q := by
  simp only [Holds, holdingsleep, Bool.and_eq_true, decide_eq_true_eq] at hp hq
  exact Option.some.inj (hp.2.symm.trans hq.2)

/-- The requests that have been appended and not yet completed. -/
def queued (x : Ide P B α) : List B := x.appended.drop x.completed.length

/-- The queue links the requests that are not yet completed, each buffer once; they all have
    something to do, and the buffers are locked. -/
structure InOrder [DecidableEq P] (x : Ide P B α) : Prop where
  linked : Linked x.next x.idequeue x.queued
  nodup : x.queued.Nodup
  order : x.completed <+: x.appended
  pending : ∀ b ∈ x.queued, ¬ (x.buf b).Synced ∧ ∃ p, x.Holds p b

/-- The disk works on the request for the buffer, or on none.  When it has finished a write, the
    data is on the disk. -/
def Running (x : Ide P B α) : Option B → Prop
  | none => x.ctl = .idle ∧ x.started = x.completed
  | some b => x.started = x.completed ++ [b] ∧ (x.ctl = .busy (x.buf b).request ∨
      ∃ q, x.ctl = .finished q (x.buf b).request ∧ ((x.buf b).dirty = true →
        x.disk (x.buf b).request.disk1 (x.buf b).request.sector = (x.buf b).data))

/-- What holds while `idelock` is free: the disk works on the first of the queue. -/
def Steady [DecidableEq P] (x : Ide P B α) : Prop := x.InOrder ∧ x.Running x.queued.head?

section Lemmas

variable [DecidableEq P] {x y : Ide P B α} {b c : B} {l : List B} {o : Option B}

/-- Done, or in the queue. -/
theorem InOrder.appended_eq (h : x.InOrder) : x.appended = x.completed ++ x.queued := by
  obtain ⟨r, hr⟩ := h.order
  rw [queued, ← hr, drop_left]

end Lemmas

end Ide

/-- A buffer without its place in the queue. -/
def IdeBuf.body (v : IdeBuf P B α) : IdeBuf P B α := { v with qnext := none }

theorem IdeBuf.congr_body {β : Type} {v w : IdeBuf P B α} (f : IdeBuf P B α → β)
    (hf : ∀ v, f v.body = f v) (h : v.body = w.body) : f v = f w := by
  rw [← hf v, h, hf w]

/-- The request for the buffer has been appended. -/
def Submitted (b : B) : Option B ⊕ IdePoint B → Prop
  | .inr (.start c _) | .inr (.wait c _) | .inr (.halt _ (some c)) => c = b
  | _ => False

/-- It is still in `iderw`. -/
theorem Submitted.inRw {g : Option B ⊕ IdePoint B} (h : Submitted b g) : InRw b g := by
  unfold Submitted at h
  split at h
  · exact h
  · exact h
  · exact h
  · exact h.elim

namespace Ide

/-- What process `p` knows of its request, or of the interrupt that it handles. -/
def Progress (x : Ide P B α) (p : P) : Option B ⊕ IdePoint B → Prop
  | .inr (.rw b) | .inr (.walk b _) => ¬ (x.buf b).Synced
  | .inr (.start b k) | .inr (.wait b k) =>
    x.appended[k]? = some b ∧ ((x.buf b).Synced → k < x.completed.length)
  | .inr .intr => ∃ req, x.ctl = .finished p req
  | _ => True

/-- A buffer that the process has locked is in the queue only while the process waits for it; and
    the process has locked the buffer for which it is in `iderw`. -/
structure Knows [DecidableEq P] (x : Ide P B α) (p : P) (g : Option B ⊕ IdePoint B) : Prop where
  submitted : ∀ b, x.Holds p b → b ∈ x.queued → Submitted b g
  holds : ∀ b, InRw b g → x.Holds p b
  progress : x.Progress p g

section Lemmas

variable {x y : Ide P B α} {p : P} {b c : B} {l : List B} {o n : Option B}
  {g : Option B ⊕ IdePoint B}

/-- Only the buffer of the request matters. -/
theorem Running.congr (h : x.Running o) (hbuf : ∀ b, o = some b → (y.buf b).body = (x.buf b).body)
    (hctl : y.ctl = x.ctl) (hdisk : y.disk = x.disk) (hstarted : y.started = x.started)
    (hcompleted : y.completed = x.completed) : y.Running o := by
  cases o with
  | none =>
    unfold Running at h ⊢
    rwa [hctl, hstarted, hcompleted]
  | some b =>
    have h1 : (y.buf b).request = (x.buf b).request :=
      IdeBuf.congr_body IdeBuf.request (fun _ => rfl) (hbuf b rfl)
    have h2 : (y.buf b).dirty = (x.buf b).dirty :=
      IdeBuf.congr_body IdeBuf.dirty (fun _ => rfl) (hbuf b rfl)
    have h3 : (y.buf b).data = (x.buf b).data :=
      IdeBuf.congr_body IdeBuf.data (fun _ => rfl) (hbuf b rfl)
    simp only [Running, hctl, hstarted, hcompleted, hdisk, h1, h2, h3]
    exact h

theorem synced_congr (hbuf : (y.buf b).body = (x.buf b).body) :
    (y.buf b).Synced ↔ (x.buf b).Synced :=
  iff_of_eq (IdeBuf.congr_body IdeBuf.Synced (fun _ => rfl) hbuf)

/-- More is appended, and the buffer that the process is concerned with stays as it is. -/
theorem Progress.mono (h : x.Progress p g) (hbuf : ∀ b, InRw b g → (y.buf b).body = (x.buf b).body)
    (happended : x.appended <+: y.appended) (hcompleted : y.completed = x.completed)
    (hctl : ∀ req, x.ctl = .finished p req → y.ctl = .finished p req) : y.Progress p g := by
  have hmore : ∀ {k : Nat} {b : B}, x.appended[k]? = some b → y.appended[k]? = some b := by
    intro k b hk
    obtain ⟨r, hr⟩ := happended
    rw [← hr]
    exact (getElem?_append_left (List.getElem?_eq_some_iff.mp hk).1).trans hk
  unfold Progress at h ⊢
  split at h
  · exact fun hs => h ((synced_congr (hbuf _ rfl)).mp hs)
  · exact fun hs => h ((synced_congr (hbuf _ rfl)).mp hs)
  · refine ⟨hmore h.1, fun hs => ?_⟩
    rw [hcompleted]
    exact h.2 ((synced_congr (hbuf _ rfl)).mp hs)
  · refine ⟨hmore h.1, fun hs => ?_⟩
    rw [hcompleted]
    exact h.2 ((synced_congr (hbuf _ rfl)).mp hs)
  · obtain ⟨req, hreq⟩ := h
    exact ⟨req, hctl req hreq⟩
  · trivial

/-- What `idestart` does, if it returns. -/
theorem idestart_ok (h : x.idestart (some b) = .ok y) :
    y = { x with ctl := .busy (x.buf b).request, started := x.started ++ [b] } := by
  simp only [idestart] at h
  split at h
  · cases h
  · split at h
    · cases h
    · cases h
      rfl

section

variable [DecidableEq B]

theorem body_setNext (x : Ide P B α) (b : B) (n : Option B) (c : B) :
    ((x.setNext b n).buf c).body = (x.buf c).body := by
  unfold setNext
  by_cases hc : c = b
  · subst hc
    simp only [update_self]
    rfl
  · simp only [update_of_ne hc]

theorem next_setNext (x : Ide P B α) (b : B) (n : Option B) :
    (x.setNext b n).next = update x.next b n := by
  funext c
  unfold setNext next
  by_cases hc : c = b
  · subst hc
    simp only [update_self]
  · simp only [update_of_ne hc]

/-- Linking changes links only. -/
theorem body_link (x : Ide P B α) (b : B) (pp : Option B) (c : B) :
    ((x.link b pp).buf c).body = (x.buf c).body := by
  cases pp with
  | none => rfl
  | some d => exact body_setNext x d (some b) c

/-- The record, and nothing else. -/
theorem link_frame (x : Ide P B α) (b : B) (pp : Option B) :
    (x.link b pp).appended = x.appended ++ [b] ∧ (x.link b pp).completed = x.completed ∧
      (x.link b pp).started = x.started ∧ (x.link b pp).ctl = x.ctl ∧
      (x.link b pp).disk = x.disk := by
  cases pp <;> exact ⟨rfl, rfl, rfl, rfl, rfl⟩

theorem buf_pop_of_ne (hc : c ≠ b) : (x.pop b).buf c = x.buf c := update_of_ne hc ..

end

variable [DecidableEq P]

theorem holds_congr (hbuf : (y.buf b).body = (x.buf b).body) : y.Holds p b ↔ x.Holds p b := by
  have hlock : (y.buf b).lock = (x.buf b).lock :=
      IdeBuf.congr_body IdeBuf.lock (fun _ => rfl) hbuf
  unfold Holds
  rw [hlock]

/-- The queue does not change, nor do the buffers in it but for `qnext`. -/
theorem InOrder.congr (h : x.InOrder) (hbuf : ∀ b ∈ x.queued, (y.buf b).body = (x.buf b).body)
    (happended : y.appended = x.appended) (hcompleted : y.completed = x.completed)
    (hlinked : Linked y.next y.idequeue x.queued) : y.InOrder := by
  have hqueued : y.queued = x.queued := by
    unfold queued
    rw [happended, hcompleted]
  refine ⟨?_, ?_, ?_, ?_⟩
  · rw [hqueued]
    exact hlinked
  · rw [hqueued]
    exact h.nodup
  · rw [happended, hcompleted]
    exact h.order
  · rw [hqueued]
    intro b hb
    obtain ⟨hs, p, hp⟩ := h.pending b hb
    exact ⟨fun hs' => hs ((synced_congr (hbuf b hb)).mp hs'), p, (holds_congr (hbuf b hb)).mpr hp⟩

/-- The disk starts on the first of the queue. -/
theorem InOrder.idestart (h : x.InOrder) (hr : x.Running none) (hb : x.idequeue = some b)
    (hy : x.idestart (some b) = .ok y) : y.Steady := by
  rw [idestart_ok hy]
  have hhead : x.queued.head? = some b := h.linked.head.symm.trans hb
  refine ⟨⟨h.linked, h.nodup, h.order, h.pending⟩, ?_⟩
  change Running _ x.queued.head?
  rw [hhead]
  exact ⟨congrArg (· ++ [b]) hr.2, .inl rfl⟩

/-- What a process knows stays. -/
theorem Knows.congr (h : x.Knows q g) (hbody : ∀ b, (y.buf b).body = (x.buf b).body)
    (happended : y.appended = x.appended) (hcompleted : y.completed = x.completed)
    (hctl : ∀ req, x.ctl = .finished q req → y.ctl = .finished q req) : y.Knows q g := by
  have hqueued : y.queued = x.queued := by
    unfold queued
    rw [happended, hcompleted]
  refine ⟨fun c hc hmem => ?_, fun c hc => (holds_congr (hbody c)).mpr (h.holds c hc), ?_⟩
  · rw [hqueued] at hmem
    exact h.submitted c ((holds_congr (hbody c)).mp hc) hmem
  · exact h.progress.mono (fun c _ => hbody c) (happended ▸ prefix_rfl) hcompleted hctl

variable [DecidableEq B]

/-- `qnext` of a buffer that is not in the queue is set. -/
theorem Steady.setNext (h : x.Steady) (hb : b ∉ x.queued) : (x.setNext b n).Steady := by
  refine ⟨h.1.congr (fun c _ => body_setNext x b n c) rfl rfl ?_, ?_⟩
  · rw [next_setNext]
    refine h.1.linked.congr fun c hc => update_of_ne ?_ ..
    exact fun e => hb (e ▸ hc)
  · exact h.2.congr (fun c _ => body_setNext x b n c) rfl rfl rfl rfl

/-- A buffer is appended at the end of the queue. -/
theorem Steady.link (h : x.Steady) (hb : b ∉ x.queued) (hnext : x.next b = none)
    (hsynced : ¬ (x.buf b).Synced) (hp : x.Holds p b) :
    (x.link b x.queued.getLast?).InOrder ∧ (x.link b x.queued.getLast?).queued = x.queued ++ [b] ∧
      (x.link b x.queued.getLast?).Running x.queued.head? := by
  obtain ⟨happended, hcompleted, hstarted, hctl, hdisk⟩ := link_frame x b x.queued.getLast?
  have hbody := body_link x b x.queued.getLast?
  have hqueued : (x.link b x.queued.getLast?).queued = x.queued ++ [b] := by
    unfold queued at hcompleted happended ⊢
    rw [happended, hcompleted, drop_append_of_le_length h.1.order.length_le]
  refine ⟨⟨?_, ?_, ?_, ?_⟩, hqueued, ?_⟩
  · rw [hqueued]
    cases hlast : x.queued.getLast? with
    | none =>
      rw [getLast?_eq_none_iff.mp hlast]
      exact ⟨rfl, hnext⟩
    | some c =>
      change Linked (x.setNext c (some b)).next x.idequeue _
      rw [next_setNext]
      exact h.1.linked.concat h.1.nodup hlast hb hnext
  · rw [hqueued]
    rw [← concat_eq_append]
    exact h.1.nodup.concat hb
  · rw [happended, hcompleted]
    exact h.1.order.trans (prefix_append ..)
  · rw [hqueued]
    intro c hc
    rw [synced_congr (hbody c)]
    simp only [holds_congr (hbody c)]
    rcases mem_append.mp hc with hc | hc
    · exact h.1.pending c hc
    · rw [mem_singleton.mp hc]
      exact ⟨hsynced, p, hp⟩
  · exact h.2.congr (fun c _ => hbody c) hctl hdisk hstarted hcompleted

/-- The first request is completed. -/
theorem Steady.pop (h : x.Steady) (hb : x.idequeue = some b) :
    (x.pop b).InOrder ∧ (x.pop b).Running none ∧ x.queued = b :: (x.pop b).queued := by
  obtain ⟨r, hr⟩ : ∃ r, x.queued = b :: r :=
    head?_eq_some_iff.mp (h.1.linked.head.symm.trans hb)
  have hlinked := h.1.linked
  have hnodup := h.1.nodup
  rw [hr] at hlinked hnodup
  rw [nodup_cons] at hnodup
  have happended : x.appended = (x.completed ++ [b]) ++ r := by
    rw [h.1.appended_eq, hr, append_cons]
  have hqueued : (x.pop b).queued = r := by
    change x.appended.drop (x.completed ++ [b]).length = r
    rw [happended, drop_left]
  have hother : ∀ c ∈ r, (x.pop b).buf c = x.buf c := fun c hc =>
    update_of_ne (fun e : c = b => hnodup.1 (e ▸ hc)) ..
  have hrunning := h.2
  rw [hr] at hrunning
  refine ⟨⟨?_, ?_, ?_, ?_⟩, ⟨rfl, hrunning.1⟩, by rw [hr, hqueued]⟩
  · rw [hqueued]
    exact hlinked.2.congr fun c hc => congrArg IdeBuf.qnext (hother c hc)
  · rw [hqueued]
    exact hnodup.2
  · exact ⟨r, happended.symm⟩
  · rw [hqueued]
    intro c hc
    have hbody : ((x.pop b).buf c).body = (x.buf c).body := congrArg IdeBuf.body (hother c hc)
    rw [synced_congr hbody]
    simp only [holds_congr hbody]
    exact h.1.pending c (hr ▸ mem_cons_of_mem _ hc)

/-- After its transfer a buffer holds what is on the disk. -/
theorem Steady.transferred (h : x.Steady) (hb : x.idequeue = some b)
    (hctl : x.ctl = .finished p req) :
    ((x.pop b).buf b).Synced ∧ ((x.pop b).buf b).data =
      x.disk ((x.buf b).request).disk1 ((x.buf b).request).sector := by
  have hrunning := h.2
  rw [← h.1.linked.head, hb] at hrunning
  obtain ⟨-, hbusy | ⟨q, hq, hwritten⟩⟩ := hrunning
  · rw [hctl] at hbusy
    cases hbusy
  · have hbuf : (x.pop b).buf b = { x.buf b with
        data := if (x.buf b).dirty then (x.buf b).data else x.port (x.buf b).data
        valid := true
        dirty := false } := update_self ..
    rw [hbuf]
    refine ⟨⟨rfl, rfl⟩, ?_⟩
    have hport : x.port (x.buf b).data =
        x.disk ((x.buf b).request).disk1 ((x.buf b).request).sector := by
      unfold port
      rw [hq]
    cases hd : (x.buf b).dirty with
    | true =>
      rw [if_pos rfl]
      exact (hwritten hd).symm
    | false =>
      rw [if_neg Bool.false_ne_true]
      exact hport

/-! ### What the processes know -/

/-- Another process has appended its request. -/
theorem Knows.link_other (hx : x.InOrder) (h : x.Knows q g) (hp : x.Holds p b) (hq : q ≠ p) :
    (x.link b pp).Knows q g := by
  obtain ⟨happended, hcompleted, -, hctl, -⟩ := link_frame x b pp
  have hbody := body_link x b pp
  refine ⟨fun c hc hmem => ?_, fun c hc => (holds_congr (hbody c)).mpr (h.holds c hc), ?_⟩
  · have hc' : x.Holds q c := (holds_congr (hbody c)).mp hc
    unfold queued at hmem
    rw [happended, hcompleted, drop_append_of_le_length hx.order.length_le] at hmem
    rcases mem_append.mp hmem with hmem | hmem
    · exact h.submitted c hc' hmem
    · rw [mem_singleton.mp hmem] at hc'
      exact absurd (hc'.unique hp) hq
  · exact h.progress.mono (fun c _ => hbody c) (happended ▸ prefix_append ..) hcompleted
      fun req hreq => hctl.trans hreq

/-- The process has appended its request. -/
theorem Knows.link (hx : x.InOrder) (h : x.Knows p (.inr (.walk b pp))) :
    (x.link b pp).Knows p (.inr (.start b x.appended.length)) := by
  obtain ⟨happended, hcompleted, -, -, -⟩ := link_frame x b pp
  have hbody := body_link x b pp
  refine ⟨fun c hc hmem => ?_, fun c hc => (holds_congr (hbody c)).mpr (h.holds c hc), ?_, ?_⟩
  · unfold queued at hmem
    rw [happended, hcompleted, drop_append_of_le_length hx.order.length_le] at hmem
    rcases mem_append.mp hmem with hmem | hmem
    · exact (h.submitted c ((holds_congr (hbody c)).mp hc) hmem).elim
    · exact (mem_singleton.mp hmem).symm
  · rw [happended]
    exact getElem?_concat_length ..
  · exact fun hs => absurd ((synced_congr (hbody b)).mp hs) h.progress

theorem holds_pop : (x.pop b).Holds p c ↔ x.Holds p c := by
  have hlock : ((x.pop b).buf c).lock = (x.buf c).lock := by
    unfold pop
    by_cases hc : c = b
    · subst hc
      simp only [update_self]
    · simp only [update_of_ne hc]
  unfold Holds
  rw [hlock]

/-- When the first request is completed, only the process that waits for it gets on. -/
theorem Progress.pop {r : List B} (hx : x.InOrder) (hr : x.queued = b :: r) (h : x.Progress q g)
    (hb : InRw b g → Submitted b g) (hctl : ∀ req, x.ctl ≠ .finished q req) :
    (x.pop b).Progress q g := by
  have hafter : ∀ c k, x.appended[k]? = some c → ((x.buf c).Synced → k < x.completed.length) →
      ((x.pop b).buf c).Synced → k < (x.completed ++ [b]).length := by
    intro c k hk hold hs
    rw [length_append, length_singleton]
    by_cases hc : c = b
    · -- in the queue the buffer is the first one, and it is there once
      subst hc
      by_contra hlt
      rw [hx.appended_eq, hr, getElem?_append_right (by omega)] at hk
      have hnodup := hx.nodup
      rw [hr, nodup_cons] at hnodup
      refine hnodup.1 ?_
      obtain ⟨j, hj⟩ : ∃ j, k - x.completed.length = j + 1 := ⟨k - x.completed.length - 1, by omega⟩
      rw [hj, getElem?_cons_succ] at hk
      exact mem_of_getElem? hk
    · rw [buf_pop_of_ne hc] at hs
      exact Nat.lt_succ_of_lt (hold hs)
  unfold Progress at h ⊢
  split at h
  · rwa [buf_pop_of_ne fun e => (hb e).elim]
  · rwa [buf_pop_of_ne fun e => (hb e).elim]
  · exact ⟨h.1, hafter _ _ h.1 h.2⟩
  · exact ⟨h.1, hafter _ _ h.1 h.2⟩
  · obtain ⟨req, hreq⟩ := h
    exact absurd hreq (hctl req)
  · trivial

/-- The first request has been completed by another process. -/
theorem Knows.pop_other (hx : x.Steady) (hb : x.idequeue = some b) (h : x.Knows q g)
    (hctl : x.ctl = .finished p req) (hq : q ≠ p) : (x.pop b).Knows q g := by
  obtain ⟨-, -, hqueued⟩ := hx.pop hb
  have hmem : b ∈ x.queued := hqueued ▸ mem_cons_self ..
  refine ⟨fun c hc hmem' => ?_, fun c hc => holds_pop.mpr (h.holds c hc), ?_⟩
  · exact h.submitted c (holds_pop.mp hc) (hqueued ▸ mem_cons_of_mem _ hmem')
  · refine h.progress.pop hx.1 hqueued (fun hin => h.submitted b (h.holds b hin) hmem) ?_
    intro req' hreq'
    rw [hctl] at hreq'
    cases hreq'
    exact hq rfl

end Lemmas

end Ide

/-! ### Steps -/

section

variable [DecidableEq P] [DecidableEq B]

/-- What holds for the process that has `idelock`. -/
def IdeInside (x : Ide P B α) : IdePoint B → Prop
  | .rw b => x.Steady ∧ b ∉ x.queued
  | .walk b pp => x.Steady ∧ b ∉ x.queued ∧ x.next b = none ∧
      ∃ l r, x.queued = l ++ r ∧ pp = l.getLast?
  | .start b _ => x.InOrder ∧ ∃ l, x.queued = l ++ [b] ∧ x.Running l.head?
  | .wake _ | .next | .halt _ _ => x.InOrder ∧ x.Running none
  | _ => x.Steady

/-- The wakeup that is still to come. -/
def IdeOwes : IdePoint B → B → Prop
  | .wake c, b => c = b
  | _, _ => False

/-- What a step of process `p` inside the lock has to keep. -/
structure IdeKept (p : P) (x y : Ide P B α) (l' : IdePoint B) (place : P → Option B ⊕ IdePoint B) :
    Prop where
  inside : IdeInside y l'
  own : y.Knows p (.inr l')
  others : ∀ q, q ≠ p → y.Knows q (place q)

variable {x y : Ide P B α} {p : P} {b : B} {k : Nat} {l l' : IdePoint B} {killed : Bool}
  {place : P → Option B ⊕ IdePoint B}

/-- `b->qnext = 0` -/
theorem kept_rw (hin : IdeInside x (.rw b)) (hk : ∀ q, x.Knows q (place q))
    (hp : place p = .inr (.rw b)) : IdeKept p x (x.setNext b none) (.walk b none) place := by
  have hbody := Ide.body_setNext x b none
  have hknows : ∀ q, (x.setNext b none).Knows q (place q) := fun q =>
    (hk q).congr hbody rfl rfl fun _ => id
  have hown := hknows p
  rw [hp] at hown
  refine ⟨⟨hin.1.setNext hin.2, hin.2, ?_, [], _, rfl, rfl⟩,
    ⟨hown.submitted, hown.holds, hown.progress⟩, fun q _ => hknows q⟩
  rw [Ide.next_setNext, update_self]

/-- The loop over the queue. -/
theorem kept_walk (hin : IdeInside x (.walk b pp)) (hk : ∀ q, x.Knows q (place q))
    (hp : place p = .inr (.walk b pp)) (hm : ideCode p x killed (.walk b pp) = .store y l') :
    IdeKept p x y l' place := by
  obtain ⟨hsteady, hb, hnext, l, r, hqueued, hpp⟩ := hin
  have hload := hqueued ▸ hsteady.1.linked
  replace hload := hload.load
  rw [← hpp] at hload
  have hown := hk p
  rw [hp] at hown
  cases r with
  | nil =>
    -- the end: the process appends its buffer
    rw [append_nil] at hqueued
    simp only [ideCode, hload, head?_nil] at hm
    cases hm
    have hholds : x.Holds p b := hown.holds b rfl
    subst hpp
    rw [← hqueued]
    obtain ⟨h1, h2, h3⟩ := hsteady.link hb hnext hown.progress hholds
    refine ⟨⟨h1, x.queued, h2, h3⟩, ?_, fun q hq => (hk q).link_other hsteady.1 hholds hq⟩
    rw [← hqueued] at hown
    exact hown.link hsteady.1
  | cons c r =>
    simp only [ideCode, hload, head?_cons] at hm
    cases hm
    refine ⟨⟨hsteady, hb, hnext, l ++ [c], r, ?_, ?_⟩,
      ⟨hown.submitted, hown.holds, hown.progress⟩, fun q _ => hk q⟩
    · rw [hqueued, append_cons]
    · rw [getLast?_concat]

omit [DecidableEq B] in
/-- A request is started, or the process panics. -/
theorem kept_start {l1 : IdePoint B} {o : Option B} (hm : startAt x b l1 o = .store y l')
    (hx : x.InOrder) (hr : x.Running none) (hb : x.idequeue = some b)
    (hk : ∀ q, x.Knows q (place q)) (hinside : ∀ y : Ide P B α, y.Steady → IdeInside y l1)
    (hown : x.Knows p (.inr l1)) (hhalt : ∀ e, x.Knows p (.inr (.halt e o))) :
    IdeKept p x y l' place := by
  unfold startAt at hm
  split at hm
  · rename_i x' hstart
    cases hm
    have hsteady := hx.idestart hr hb hstart
    have hy := Ide.idestart_ok hstart
    -- the disk was idle, so nobody is about to handle an interrupt
    have hctl : ∀ q req, x.ctl = .finished q req → y.ctl = .finished q req := by
      intro q req hreq
      rw [hr.1] at hreq
      cases hreq
    have hcongr : ∀ q g, x.Knows q g → y.Knows q g := by
      intro q g h
      have hctl' := hctl q
      subst hy
      exact h.congr (fun _ => rfl) rfl rfl hctl'
    exact ⟨hinside y hsteady, hcongr p _ hown, fun q _ => hcongr q _ (hk q)⟩
  · cases hm
    exact ⟨⟨hx, hr⟩, hhalt _, fun q _ => hk q⟩

/-- After `*pp = b`. -/
theorem kept_append (hin : IdeInside x (.start b k)) (hk : ∀ q, x.Knows q (place q))
    (hp : place p = .inr (.start b k))
    (hm : ideCode p x killed (.start b k) = .store y l') : IdeKept p x y l' place := by
  obtain ⟨hx, l, hqueued, hr⟩ := hin
  have hown := hk p
  rw [hp] at hown
  have hnodup := hx.nodup
  have hhead := hx.linked.head
  rw [hqueued] at hnodup hhead
  simp only [ideCode] at hm
  cases l with
  | nil =>
    -- it is the only one in the queue
    rw [hhead] at hm
    rw [nil_append, head?_cons] at hhead hm
    rw [if_pos rfl] at hm
    exact kept_start hm hx hr hhead hk (fun _ => id) ⟨hown.submitted, hown.holds, hown.progress⟩
      fun e => ⟨hown.submitted, hown.holds, trivial⟩
  | cons c l =>
    have hcb : c ≠ b := by simp_all
    have hne : x.idequeue ≠ some b := by
      rw [hhead]
      exact fun e => hcb (Option.some.inj e)
    rw [if_neg hne] at hm
    cases hm
    refine ⟨⟨hx, ?_⟩, ⟨hown.submitted, hown.holds, hown.progress⟩, fun q _ => hk q⟩
    rw [hqueued]
    exact hr

/-- `ideintr` takes the first of the queue. -/
theorem kept_intr (hin : IdeInside x .intr) (hk : ∀ q, x.Knows q (place q))
    (hp : place p = .inr .intr) (hm : ideCode p x killed .intr = .store y l') :
    IdeKept p x y l' place := by
  have hown := hk p
  rw [hp] at hown
  obtain ⟨req, hctl⟩ := hown.progress
  simp only [ideCode] at hm
  split at hm
  · cases hm
  · rename_i b hb
    cases hm
    obtain ⟨h1, h2, hqueued⟩ := Ide.Steady.pop hin hb
    have hother := fun q hq => (hk q).pop_other hin hb hctl hq
    refine ⟨⟨h1, h2⟩, ⟨fun c hc hmem => ?_, fun c hc => hc.elim, trivial⟩, hother⟩
    exact hown.submitted c (Ide.holds_pop.mp hc) (hqueued ▸ mem_cons_of_mem _ hmem)

/-- `ideintr` starts the next request. -/
theorem kept_next (hin : IdeInside x .next) (hk : ∀ q, x.Knows q (place q))
    (hp : place p = .inr .next) (hm : ideCode p x killed .next = .store y l') :
    IdeKept p x y l' place := by
  have hown := hk p
  rw [hp] at hown
  simp only [ideCode] at hm
  split at hm
  · cases hm
  · rename_i b hb
    exact kept_start hm hin.1 hin.2 hb hk (fun _ => id)
      ⟨hown.submitted, fun c hc => hc.elim, trivial⟩
      fun e => ⟨hown.submitted, fun c hc => hc.elim, trivial⟩

omit [DecidableEq P] in
/-- The flags of a buffer change only where its process is going to be woken up. -/
theorem ide_waits (hm : ideCode p x killed l = .store y l') {c : B}
    (h : ¬ (x.buf c).Synced ∨ IdeOwes l c) : ¬ (y.buf c).Synced ∨ IdeOwes l' c := by
  have hstart : ∀ {b l1 o}, startAt x b l1 o = .store y l' → (y.buf c).Synced →
    (x.buf c).Synced := by
    intro b l1 o hm
    unfold startAt at hm
    split at hm
    · rename_i x' hstart
      cases hm
      rw [Ide.idestart_ok hstart]
      exact id
    · cases hm
      exact id
  cases l with
  | rw b =>
    cases hm
    exact .inl fun hs => h.resolve_right id ((Ide.synced_congr (Ide.body_setNext ..)).mp hs)
  | walk b pp =>
    refine .inl fun hs => h.resolve_right id ?_
    simp only [ideCode] at hm
    split at hm
    · cases hm
      exact hs
    · cases hm
      exact (Ide.synced_congr (Ide.body_link ..)).mp hs
  | start b k =>
    refine .inl fun hs => h.resolve_right id ?_
    simp only [ideCode] at hm
    split at hm
    · exact hstart hm hs
    · cases hm
      exact hs
  | wait b k =>
    simp only [ideCode] at hm
    split at hm <;> cases hm
  | intr =>
    simp only [ideCode] at hm
    split at hm
    · cases hm
    · rename_i b hb
      cases hm
      by_cases hc : c = b
      · exact .inr hc.symm
      · refine .inl fun hs => h.resolve_right id ?_
        rwa [Ide.buf_pop_of_ne hc] at hs
  | wake b => cases hm
  | next =>
    refine .inl fun hs => h.resolve_right id ?_
    simp only [ideCode] at hm
    split at hm
    · cases hm
    · exact hstart hm hs
  | done => cases hm
  | halt e o =>
    cases hm
    exact .inl (h.resolve_right id)

/-- A step of a process inside the lock. -/
theorem ide_store (hin : IdeInside x l) (hk : ∀ q, x.Knows q (place q)) (hp : place p = .inr l)
    (hm : ideCode p x killed l = .store y l') : IdeKept p x y l' place := by
  cases l with
  | rw b =>
    cases hm
    exact kept_rw hin hk hp
  | walk b pp => exact kept_walk hin hk hp hm
  | start b k => exact kept_append hin hk hp hm
  | wait b k =>
    simp only [ideCode] at hm
    split at hm <;> cases hm
  | intr => exact kept_intr hin hk hp hm
  | wake b => cases hm
  | next => exact kept_next hin hk hp hm
  | done => cases hm
  | halt e o =>
    cases hm
    exact ⟨hin, hp ▸ hk p, fun q _ => hk q⟩

/-- The places at which a process acquires the lock. -/
def IdeResume : IdePoint B → Prop
  | .rw _ | .wait _ _ | .intr => True
  | _ => False

section Code

variable {c : B} {r : Option B}

omit [DecidableEq P] [DecidableEq B] in
/-- It goes on with a store. -/
theorem startAt_store (x : Ide P B α) (b : B) (l : IdePoint B) (o : Option B) :
    ∃ y l', startAt x b l o = .store y l' := by
  unfold startAt
  split <;> exact ⟨_, _, rfl⟩

/-- Where a process does something else than a step in the data. -/
inductive Pause (x : Ide P B α) : IdePoint B → Move (Ide P B α) (IdePoint B) B (Option B) → Prop
  | store (l : IdePoint B) (y : Ide P B α) (l' : IdePoint B) : Pause x l (.store y l')
  | back (b : B) (k : Nat) : (x.buf b).Synced → Pause x (.wait b k) (.leave (some b))
  | sleep (b : B) (k : Nat) : ¬ (x.buf b).Synced → Pause x (.wait b k) (.sleep b (.wait b k))
  | wakeup (b : B) : Pause x (.wake b) (.wakeup b .next)
  | none : Pause x .intr (.leave none)
  | last : x.idequeue = none → Pause x .next (.leave none)
  | done : Pause x .done (.leave none)

omit [DecidableEq P] in
/-- Where the code can stop. -/
theorem ide_pause (p : P) (x : Ide P B α) (killed : Bool) (l : IdePoint B) :
    Pause x l (ideCode p x killed l) := by
  cases l with
  | rw b => exact .store ..
  | walk b pp =>
    simp only [ideCode]
    split <;> exact .store ..
  | start b k =>
    simp only [ideCode]
    split
    · obtain ⟨y, l', h⟩ := startAt_store x b (.wait b k) (some b)
      rw [h]
      exact .store ..
    · exact .store ..
  | wait b k =>
    simp only [ideCode]
    split
    · exact .back b k ‹_›
    · exact .sleep b k ‹_›
  | intr =>
    simp only [ideCode]
    split
    · exact .none
    · exact .store ..
  | wake b => exact .wakeup b
  | next =>
    simp only [ideCode]
    split
    · exact .last ‹_›
    · rename_i b _
      obtain ⟨y, l', h⟩ := startAt_store x b .done none
      rw [h]
      exact .store ..
  | done => exact .done
  | halt e o => exact .store ..

end Code

omit [DecidableEq B] in
/-- What the panics rule out. -/
theorem check_ok (h : x.check p b = .ok ()) : x.Holds p b ∧ ¬ (x.buf b).Synced := by
  unfold Ide.check at h
  split at h
  · cases h
  · rename_i hholds
    split at h
    · cases h
    · exact ⟨Bool.eq_true_of_not_eq_false hholds, ‹_›⟩

/-- The queue is in order, every process knows its own request, and who sleeps on a buffer has not
    got it yet. -/
def ideDiscipline :
    Discipline (ideCode : Code P (Ide P B α) (IdePoint B) B (Option B))
      (fun s a => IdeRules s (.act a)) where
  free := Ide.Steady
  inside _ x l := IdeInside x l
  resume _ l := IdeResume l
  sleeps _ c l := ∃ k, l = .wait c k
  claim p g x := x.Knows p g
  waits c x := ¬ (x.buf c).Synced
  owes _ l c := IdeOwes l c
  enter := by
    intro s p r l ha _ hcl
    cases l with
    | rw b =>
      obtain ⟨hholds, hsynced⟩ := check_ok ha
      exact ⟨trivial, hcl.submitted, fun c hc => hc ▸ hholds, hsynced⟩
    | intr => exact ⟨trivial, hcl.submitted, fun c hc => hc.elim, ha⟩
    | _ => exact ha.elim
  awake := by
    rintro p c l ⟨k, rfl⟩
    trivial
  acquire := by
    intro p x l hx hres hcl
    cases l with
    | rw b => exact ⟨hx, fun hmem => hcl.submitted b (hcl.holds b rfl) hmem⟩
    | wait b k => exact hx
    | intr => exact hx
    | _ => exact hres.elim
  store := by
    intro s p l x l' _ hp hin hk hm
    have hkept : IdeKept p s.data x l' fun q => (s.stage q).place :=
      ide_store hin hk (by rw [hp]; rfl) hm
    exact ⟨hkept.inside, hkept.own, hkept.others, fun c h => ide_waits hm h⟩
  wakeup := by
    intro s p l c l' _ _ hin hcl hm
    have hpause := ide_pause p s.data (s.killed p) l
    rw [hm] at hpause
    cases hpause
    refine ⟨hin, ⟨hcl.submitted, fun c hc => hc.elim, trivial⟩, fun c' h => ?_⟩
    rcases h with hw | rfl
    · exact .inr (.inl hw)
    · exact .inl rfl
  sleep := by
    intro s p l c l' _ _ hin hcl hm
    have hpause := ide_pause p s.data (s.killed p) l
    rw [hm] at hpause
    cases hpause with
    | sleep b k hs => exact ⟨hin, ⟨k, rfl⟩, hcl, hs, fun c' ho => ho.elim⟩
  leave := by
    intro s p l r _ _ hin hcl hm
    have hpause := ide_pause p s.data (s.killed p) l
    rw [hm] at hpause
    have hout : (∀ c, s.data.Holds p c → c ∉ s.data.queued) → s.data.Knows p (.inl r) := fun h =>
      ⟨fun c hc hmem => absurd hmem (h c hc), fun c hc => hc.elim, trivial⟩
    cases hpause with
    | back b k hs =>
      -- a buffer that is up to date is not in the queue any more
      have hx : s.data.Steady := hin
      refine ⟨hx, hout fun c hc hmem => ?_, fun c ho => ho.elim⟩
      obtain rfl : b = c := hcl.submitted c hc hmem
      exact (hx.1.pending b hmem).1 hs
    | none => exact ⟨hin, hout hcl.submitted, fun c ho => ho.elim⟩
    | last hempty =>
      refine ⟨⟨hin.1, ?_⟩, hout hcl.submitted, fun c ho => ho.elim⟩
      rw [← hin.1.linked.head, hempty]
      exact hin.2
    | done => exact ⟨hin, hout hcl.submitted, fun c ho => ho.elim⟩

/-! ### Runs -/

variable {s s' : IdeState P B α}

omit [DecidableEq B] in
/-- The queue is the same, and what is true of the request that the disk works on stays true. -/
theorem IdeInside.map (h : IdeInside x l) (hqueued : y.queued = x.queued) (hnext : y.next = x.next)
    (horder : x.InOrder → y.InOrder)
    (hrun : ∀ o : Option B, (∀ c, o = some c → c ∈ x.queued) → x.Running o → y.Running o) :
    IdeInside y l := by
  have hsteady : x.Steady → y.Steady := fun hx => by
    refine ⟨horder hx.1, ?_⟩
    rw [hqueued]
    exact hrun _ (fun c hc => mem_of_head? hc) hx.2
  have hidle : x.InOrder ∧ x.Running none → y.InOrder ∧ y.Running none := fun hx =>
    ⟨horder hx.1, hrun none nofun hx.2⟩
  cases l with
  | rw b => exact ⟨hsteady h.1, hqueued ▸ h.2⟩
  | walk b pp =>
    obtain ⟨h1, h2, h3, h4⟩ := h
    exact ⟨hsteady h1, hqueued ▸ h2, hnext ▸ h3, hqueued ▸ h4⟩
  | start b k =>
    obtain ⟨h1, r, h2, h3⟩ := h
    refine ⟨horder h1, r, hqueued.trans h2, hrun _ (fun c hc => ?_) h3⟩
    rw [h2]
    exact mem_append_left _ (mem_of_head? hc)
  | wait b k => exact hsteady h
  | intr => exact hsteady h
  | wake b => exact hidle h
  | next => exact hidle h
  | done => exact hsteady h
  | halt e o => exact hidle h

/-- Somebody else than the driver changes something. -/
theorem ide_outside (hi : ideDiscipline.Inv s) (hqueued : y.queued = s.data.queued)
    (hnext : y.next = s.data.next) (horder : s.data.InOrder → y.InOrder)
    (hrun : ∀ o : Option B, (∀ c, o = some c → c ∈ s.data.queued) → s.data.Running o → y.Running o)
    (hknows : ∀ p, s.data.Knows p (s.stage p).place → y.Knows p (s.stage p).place)
    (hsynced : ∀ p c, InRw c (s.stage p).place → ¬ (s.data.buf c).Synced → ¬ (y.buf c).Synced) :
    ideDiscipline.Inv { s with data := y } := by
  have hinside : ∀ l, IdeInside s.data l → IdeInside y l := fun l h =>
    h.map hqueued hnext horder hrun
  refine hi.outside (hinside .done) (fun p => ?_) (fun p => hknows p (hi.claim p))
    (fun p c hb => ?_)
    fun c l => id
  · cases s.stage p with
    | inside l => exact hinside l
    | waking c l => exact hinside l
    | dozing c l => exact fun h => ⟨hinside .done h.1, h.2⟩
    | _ => exact id
  · -- who sleeps on a buffer, or is about to, is in `iderw` for it
    refine hsynced p c ?_
    have hok := hi.ok p
    cases hg : s.stage p with
    | dozing c' l =>
      rw [hg] at hb hok
      obtain ⟨k, rfl⟩ := hok.2
      exact hb
    | falling c' l =>
      rw [hg] at hb hok
      obtain ⟨k, rfl⟩ := hok
      exact hb
    | asleep c' l =>
      rw [hg] at hb hok
      obtain ⟨k, rfl⟩ := hok
      exact hb
    | _ =>
      rw [hg] at hb
      exact hb.elim

/-- The disk works on the first of the queue, or on nothing. -/
def Ide.Serving (x : Ide P B α) : Prop := ∃ o, x.Running o ∧ (o = none ∨ o = x.idequeue)

omit [DecidableEq B] in
theorem Ide.Steady.serving (h : x.Steady) : x.Running x.idequeue := by
  rw [h.1.linked.head]
  exact h.2

omit [DecidableEq B] in
theorem IdeInside.inOrder (h : IdeInside x l) : x.InOrder ∧ x.Serving := by
  have hsteady : x.Steady → x.InOrder ∧ x.Serving := fun hx =>
    ⟨hx.1, x.idequeue, hx.serving, .inr rfl⟩
  have hidle : x.InOrder ∧ x.Running none → x.InOrder ∧ x.Serving := fun hx =>
    ⟨hx.1, none, hx.2, .inl rfl⟩
  cases l with
  | rw b => exact hsteady h.1
  | walk b pp => exact hsteady h.1
  | start b k =>
    obtain ⟨h1, r, h2, h3⟩ := h
    refine ⟨h1, r.head?, h3, ?_⟩
    cases r with
    | nil => exact .inl rfl
    | cons c r =>
      right
      rw [h1.linked.head, h2]
      rfl
  | wait b k => exact hsteady h
  | intr => exact hsteady h
  | wake b => exact hidle h
  | next => exact hidle h
  | done => exact hsteady h
  | halt e o => exact hidle h

/-- In every state the queue is in order, whoever has the lock. -/
theorem ide_inOrder (hi : ideDiscipline.Inv s) : s.data.InOrder ∧ s.data.Serving :=
  hi.always (Q := fun x => x.InOrder ∧ x.Serving) (fun h => IdeInside.inOrder (l := .done) h)
    fun _ _ h => IdeInside.inOrder h

/-- A buffer that no process is in `iderw` for is changed: it is not in the queue. -/
theorem ide_touch (hi : ideDiscipline.Inv s) (hb : ∀ p, ¬ InRw b (s.stage p).place)
    (v : IdeBuf P B α) : ideDiscipline.Inv { s with data := s.data.touch b v } := by
  have horder := (ide_inOrder hi).1
  have hout : b ∉ s.data.queued := by
    intro hmem
    obtain ⟨-, p, hp⟩ := horder.pending b hmem
    exact hb p ((hi.claim p).submitted b hp hmem).inRw
  have hbuf : ∀ c, c ≠ b → (s.data.touch b v).buf c = s.data.buf c := fun c hc =>
    update_of_ne hc ..
  have hbody : ∀ c, c ≠ b → ((s.data.touch b v).buf c).body = (s.data.buf c).body := fun c hc =>
    congrArg IdeBuf.body (hbuf c hc)
  have hnext : (s.data.touch b v).next = s.data.next := by
    funext c
    unfold Ide.touch Ide.next
    by_cases hc : c = b
    · subst hc
      simp only [update_self]
    · simp only [update_of_ne hc]
  have hne : ∀ {c}, c ∈ s.data.queued → c ≠ b := fun hc e => hout (e ▸ hc)
  have hin : ∀ {p c}, InRw c (s.stage p).place → c ≠ b := fun {p c} hc e => hb p (e ▸ hc)
  refine ide_outside hi rfl hnext (fun h => ?_) (fun o ho h => ?_) (fun p h => ?_) fun p c hc => ?_
  · refine h.congr (fun c hc => hbody c (hne hc)) rfl rfl ?_
    rw [hnext]
    exact h.linked
  · exact h.congr (fun c hc => hbody c (hne (ho c hc))) rfl rfl rfl rfl
  · refine ⟨fun c hc hmem => ?_, fun c hc => ?_, ?_⟩
    · exact h.submitted c ((Ide.holds_congr (hbody c (hne hmem))).mp hc) hmem
    · exact (Ide.holds_congr (hbody c (hin hc))).mpr (h.holds c hc)
    · exact h.progress.mono (fun c hc => hbody c (hin hc)) prefix_rfl rfl fun _ => id
  · rw [hbuf c (hin hc)]
    exact id

/-- The disk finishes its request. -/
theorem ide_complete (hi : ideDiscipline.Inv s) (hctl : s.data.ctl = .busy req) (q : P) :
    ideDiscipline.Inv { s with data := s.data.complete req q } := by
  refine ide_outside hi rfl rfl (fun h => ⟨h.linked, h.nodup, h.order, h.pending⟩) (fun o _ h => ?_)
    (fun p h => h.congr (fun _ => rfl) rfl rfl ?_) fun _ _ _ => id
  · cases o with
    | none =>
      have hidle := h.1
      rw [hctl] at hidle
      cases hidle
    | some b =>
      obtain ⟨h1, hbusy | ⟨q', hq', -⟩⟩ := h
      · rw [hctl] at hbusy
        obtain rfl := Controller.busy.inj hbusy
        refine ⟨h1, .inr ⟨q, rfl, fun hd => ?_⟩⟩
        have hdirty : (s.data.buf b).dirty = true := hd
        have hreq : (s.data.buf b).request.out = some (s.data.buf b).data := if_pos hdirty
        simp only [Ide.complete, hreq, update_self]
      · rw [hctl] at hq'
        cases hq'
  · intro req' hreq'
    rw [hctl] at hreq'
    cases hreq'

/-- Along a run the assertions hold. -/
theorem ide_inv {buf : B → IdeBuf P B α} {havedisk1 : Bool} {disk : Bool → Word → α}
    {killed : P → Bool}
    (hr : Reach ideStep IdeRules (ideStart buf havedisk1 disk killed) s) :
    ideDiscipline.Inv s := by
  have hstart : (⟨buf, none, havedisk1, .idle, disk, [], [], []⟩ : Ide P B α).Steady :=
    ⟨⟨rfl, nodup_nil, prefix_rfl, nofun⟩, rfl, rfl⟩
  have h0 : ideDiscipline.Inv (ideStart buf havedisk1 disk killed) :=
    Discipline.Inv.start (T := ideDiscipline) hstart fun p =>
      ⟨fun c _ hc => absurd hc not_mem_nil, fun c hc => hc.elim, trivial⟩
  refine hr.invariant h0 fun s a s' hi ha hs => ?_
  cases a with
  | act a => exact hi.step ha hs
  | touch b v =>
    cases hs
    exact ide_touch hi ha v
  | complete q =>
    simp only [ideStep] at hs
    split at hs
    · rename_i req hctl
      cases hs
      exact ide_complete hi hctl q
    · cases hs

omit [DecidableEq B] in
/-- Requests are started and completed in the order in which they were appended. -/
theorem Ide.InOrder.prefixes (h : x.InOrder) (hserving : x.Serving) :
    x.completed <+: x.started ∧ x.started <+: x.appended ∧
      x.started.length ≤ x.completed.length + 1 := by
  obtain ⟨o, hrun, ho⟩ := hserving
  cases o with
  | none =>
    rw [hrun.2]
    exact ⟨prefix_rfl, h.order, Nat.le_succ _⟩
  | some b =>
    have hhead : x.queued.head? = some b := by
      rw [← h.linked.head, ← ho.resolve_left nofun]
    obtain ⟨r, hqueued⟩ := head?_eq_some_iff.mp hhead
    have happended : x.appended = x.completed ++ [b] ++ r := by
      rw [h.appended_eq, hqueued, append_cons]
    rw [hrun.1, happended]
    exact ⟨prefix_append .., prefix_append .., by simp⟩

omit [DecidableEq P] [DecidableEq B] in
/-- The request is the buffer's. -/
theorem Ide.Running.request_eq (h : x.Running (some b))
    (hreq : x.ctl = .busy req ∨ ∃ q, x.ctl = .finished q req) : req = (x.buf b).request := by
  grind [h.2]

variable {buf : B → IdeBuf P B α} {havedisk1 : Bool} {disk : Bool → Word → α} {killed : P → Bool}

/-- In every state the requests have been started and completed in the order in which they were
    appended, and the queue links those that are left, no buffer twice; the request that the disk
    works on is the first of the queue, and while the lock is free it works on it if there is one;
    when `ideintr` completes a request the buffer holds what is on the disk; and `iderw` returns
    when its request has been completed and the buffer is up to date. -/
theorem ide_queue (hr : Reach ideStep IdeRules (ideStart buf havedisk1 disk killed) s) :
    (s.data.completed <+: s.data.started ∧ s.data.started <+: s.data.appended ∧
      s.data.started.length ≤ s.data.completed.length + 1) ∧
    (Linked s.data.next s.data.idequeue s.data.queued ∧
      s.data.appended = s.data.completed ++ s.data.queued ∧ s.data.queued.Nodup) ∧
    (∀ req, (s.data.ctl = .busy req ∨ ∃ q, s.data.ctl = .finished q req) →
      ∃ b, s.data.idequeue = some b ∧ s.data.started = s.data.completed ++ [b] ∧
        req = (s.data.buf b).request) ∧
    (s.lk = none → s.data.ctl = .idle → s.data.idequeue = none) ∧
    (∀ p b s', s.stage p = .inside .intr → s.data.idequeue = some b →
      s.step ideCode (.run p) = .ok s' → s'.data.completed = s.data.completed ++ [b] ∧
        (s'.data.buf b).Synced ∧ (s'.data.buf b).data =
          s'.data.disk (s.data.buf b).request.disk1 (s.data.buf b).request.sector) ∧
    ∀ p b k s' r, s.stage p = .inside (.wait b k) → s.step ideCode (.run p) = .ok s' →
      s'.stage p = .out r → r = some b ∧ (s'.data.buf b).Synced ∧
        s'.data.completed[k]? = some b := by
  have hi := ide_inv hr
  obtain ⟨horder, hserving⟩ := ide_inOrder hi
  have happended := horder.appended_eq
  refine ⟨horder.prefixes hserving, ⟨horder.linked, happended, horder.nodup⟩, ?_, ?_, ?_, ?_⟩
  · intro req hreq
    obtain ⟨o, hrun, ho⟩ := hserving
    cases o with
    | none =>
      rw [hrun.1] at hreq
      rcases hreq with h | ⟨q, h⟩ <;> cases h
    | some b => exact ⟨b, (ho.resolve_left nofun).symm, hrun.1, hrun.request_eq hreq⟩
  · intro hl hidle
    have hserving := (hi.free hl).serving
    cases hq : s.data.idequeue with
    | none => rfl
    | some b =>
      rw [hq] at hserving
      rcases hserving.2 with h | ⟨q, h, -⟩ <;> rw [hidle] at h <;> cases h
  · intro p b s' hp hb hs
    have hin := hi.ok p
    have hclaim := hi.claim p
    rw [hp] at hin hclaim
    obtain ⟨req, hctl⟩ := hclaim.progress
    have hsteady : s.data.Steady := hin
    simp only [State.step, State.run, hp, ideCode, hb] at hs
    cases hs
    exact ⟨rfl, hsteady.transferred hb hctl⟩
  · intro p b k s' r hp hs hout
    have hclaim := hi.claim p
    rw [hp] at hclaim
    obtain ⟨hk, hdone⟩ := hclaim.progress
    simp only [State.step, State.run, hp, ideCode] at hs
    split at hs
    · rename_i hsynced
      cases hs
      rw [show (State.goto s p (.out (some b))).stage p = .out (some b) from
        update_self ..] at hout
      cases hout
      refine ⟨rfl, hsynced, ?_⟩
      rw [happended, List.getElem?_append_left (hdone hsynced)] at hk
      exact hk
    · simp only [State.move] at hs
      split at hs
      · cases hs
        rw [show (State.goto s p (.dozing b (.wait b k))).stage p = .dozing b (.wait b k) from
          update_self ..] at hout
        cases hout
      · cases hs

end

instance [DecidableEq P] (ctl : Controller P α) (p : P) :
    Decidable (∃ req, ctl = .finished p req) :=
  match ctl with
  | .idle => .isFalse nofun
  | .busy _ => .isFalse nofun
  | .finished q req =>
    if h : q = p then .isTrue ⟨req, h ▸ rfl⟩
    else .isFalse fun ⟨_, e⟩ => h (Controller.finished.inj e).1

instance [DecidableEq P] [DecidableEq B] (x : Ide P B α) (p : P) (b : B) :
    Decidable (x.check p b = .ok ()) :=
  match x.check p b with
  | .ok () => .isTrue rfl
  | .error _ => .isFalse nofun

instance [Fintype P] [DecidableEq P] [DecidableEq B] (s : IdeState P B α) (a : IdeAct P B α) :
    Decidable (IdeRules s a) := by
  unfold IdeRules
  split <;> infer_instance

/-- Buffer 0 is to be read and buffer 1 to be written, each by the process of that number. -/
def twoBufs (b : Fin 2) : IdeBuf (Fin 3) (Fin 2) Byte where
  valid := false
  dirty := b = 1
  dev := 0
  blockno := b.val
  lock := ⟨true, some b.castSucc⟩
  qnext := none
  data := 7

/-- Both requests are appended, and process 2 handles the interrupt after the first. -/
def twoRequests : List (IdeAct (Fin 3) (Fin 2) Byte) :=
  [.act (.enter 0 (.rw 0))] ++ List.replicate 8 (.act (.run 0)) ++
    [.act (.enter 1 (.rw 1))] ++ List.replicate 9 (.act (.run 1)) ++
    [.complete 2, .act (.enter 2 .intr)] ++ List.replicate 6 (.act (.run 2)) ++
    List.replicate 2 (.act (.run 0))

/-- Two requests. -/
theorem ide_queue_twoRequests : ∃ s : IdeState (Fin 3) (Fin 2) Byte,
    Reach ideStep IdeRules (ideStart twoBufs false (fun _ _ => 0) fun _ => false) s ∧
      s.data.appended = [0, 1] ∧ s.data.started = [0, 1] ∧ s.data.completed = [0] ∧
      s.stage 0 = .inside (.wait 0 0) ∧ s.data.completed <+: s.data.started ∧
      s.data.started <+: s.data.appended := by
  obtain ⟨s, hs, ht⟩ := Outcome.holds_iff.mp
    (show (twoRequests.foldlM (fun (s : IdeState (Fin 3) (Fin 2) Byte) a =>
        if IdeRules s a then ideStep s a else .hang)
        (ideStart twoBufs false (fun _ _ => 0) fun _ => false)).holds
      (fun s => s.data.appended = [0, 1] ∧ s.data.started = [0, 1] ∧ s.data.completed = [0] ∧
        s.stage 0 = .inside (.wait 0 0)) = true by decide +kernel)
  have hr : Reach ideStep IdeRules (ideStart twoBufs false (fun _ _ => 0) fun _ => false) s :=
    Reach.of_checked hs
  obtain ⟨h1, h2, h3, h4⟩ := of_decide_eq_true ht
  exact ⟨s, hr, h1, h2, h3, h4, (ide_queue hr).1.1, (ide_queue hr).1.2.1⟩

end Xv6.Sync
