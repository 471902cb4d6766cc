import Xv6.Log.Refine
import Xv6.Lib.Rely

namespace Xv6.Logging

open Abs BlockData Function List Prod Rely

/-!
# Commit and recovery

What `commit` and `recover_from_log` do to the contents of the blocks and to the disk, with
other processes at work on blocks that are not in the header.

* `Header` — headers that fit the log;
* `Others` — what other processes may do meanwhile: `K` are the blocks whose places on disk they
  leave alone;
* `Coherent`, `Recoverable` — what is to hold all the time: the contents of the blocks are those
  stored last, and from the disk one gets the contents at the last commit;
* `Logged`, `Installed`, `Erasing`, `Finished` — how far the commit has come;
* `commit_safe`, `recover_safe` — both keep these from beginning to end.
-/

variable {α : Type} [BlockData α] {G : Geo} {l : List Nat}
variable {j : Nat}

/-! ### Headers -/

/-- The block is one of those in the header `l`. -/
def Geo.InHeader (G : Geo) (l : List Nat) (κ : Key) : Prop := κ.1 = G.dev ∧ κ.2 ∈ l

/-- A header that fits the log: there are blocks for its entries, and its entries are not the
    log's own blocks. -/
structure Header (G : Geo) (l : List Nat) : Prop where
  home : ∀ b ∈ l, G.Home (G.home b)
  bound : ∀ b ∈ l, b < FSSIZE
  length : l.length + 1 ≤ G.size

theorem header_nil : Header G [] := ⟨nofun, nofun, by unfold Geo.size nlog LOGSIZE; decide⟩

theorem head_not_home : ¬ G.Home G.head := by
  unfold Geo.Home Geo.head Geo.size nlog LOGSIZE MAXOPBLOCKS
  simp

namespace Header

variable {j k b : Nat} {κ : Key}

theorem slot_not_home (h : Header G l) (hj : j < l.length) : ¬ G.Home (G.slot j) := by
  have hlen := h.length
  unfold Geo.Home Geo.slot
  simp only [not_not, true_and]
  omega

theorem slot_ne_head : G.slot j ≠ G.head := by
  unfold Geo.slot Geo.head
  intro he
  have := congrArg snd he
  omega

theorem slot_ne_slot (hjk : j ≠ k) : G.slot j ≠ G.slot k := by
  unfold Geo.slot
  intro he
  have := congrArg snd he
  omega

theorem ne_of_home {κ κ' : Key} (h1 : G.Home κ) (h2 : ¬ G.Home κ') : κ ≠ κ' :=
  fun he => h2 (he ▸ h1)

theorem home_inHeader (hb : b ∈ l) : G.InHeader l (G.home b) := ⟨rfl, hb⟩

/-- The header is read back as it was written. -/
theorem read_write (h : Header G l) (x : α) : readHead (writeHead l x) = l := by
  have hlen := h.length
  exact BlockData.read_write l x (by unfold Geo.size nlog at hlen; omega) h.bound

end Header

/-! ### What the others do -/

/-- The commit's own blocks: the log's, and those in the header. -/
def Geo.Own (G : Geo) (l : List Nat) (κ : Key) : Prop := ¬ G.Home κ ∨ G.InHeader l κ

/-- The contents of the blocks that are not the log's are those stored last. -/
def Coherent (G : Geo) (m : Abs α) : Prop := ∀ κ, G.Home κ → m.view κ = m.last κ

/-- Other processes work on blocks that are not in the header, and keep coherent what is; they
    leave alone the places of the blocks `K` on the disk. -/
structure Others (G : Geo) (K : Key → Prop) (m m' : Abs α) : Prop where
  block : m'.block = m.block
  snap : m'.snap = m.snap
  txs : m'.txs = m.txs
  view : ∀ κ, G.Own m.block κ → m'.view κ = m.view κ
  last : ∀ κ, G.Own m.block κ ∨ K κ → m'.last κ = m.last κ
  disk : ∀ κ, G.Own m.block κ ∨ K κ → m'.disk κ = m.disk κ
  coherent : ∀ κ, G.Home κ → m.view κ = m.last κ → m'.view κ = m'.last κ

omit [BlockData α] in
theorem Others.refl {K : Key → Prop} (m : Abs α) : Others G K m m :=
  ⟨rfl, rfl, rfl, fun _ _ => rfl, fun _ _ => rfl, fun _ _ => rfl, fun _ _ h => h⟩

instance {K : Key → Prop} : IsTrans (Abs α) (Others G K) where
  trans m _ _ h h' := by
    obtain ⟨hb, hs, ht, hv, hl, hd, hc⟩ := h'
    rw [h.block] at hb hv hl hd
    exact ⟨hb, hs.trans h.snap, ht.trans h.txs, fun κ hκ => (hv κ hκ).trans (h.view κ hκ),
      fun κ hκ => (hl κ hκ).trans (h.last κ hκ), fun κ hκ => (hd κ hκ).trans (h.disk κ hκ),
      fun κ hκ he => hc κ hκ (h.coherent κ hκ he)⟩

/-- From the disk one gets the contents at the last commit: those of the entries of its header
    are in the log, and the others in their places. -/
structure Recoverable (G : Geo) (K : Key → Prop) (m : Abs α) : Prop where
  header : Header G (readHead (m.disk G.head))
  slots : ∀ j b, (readHead (m.disk G.head))[j]? = some b → m.disk (G.slot j) = m.snap (G.home b)
  rest : ∀ κ, G.Home κ → K κ → ¬ G.InHeader (readHead (m.disk G.head)) κ → m.disk κ = m.snap κ

/-- The disk `d` with the writes of transaction `tx`. -/
def applyTx (G : Geo) (d : Key → α) (tx : List (Nat × α)) : Key → α :=
  tx.foldl (fun d e => update d (G.home e.1) e.2) d

/-- The disk `d` with the writes of the transactions `txs`, in their order. -/
def applyTxs (G : Geo) (d : Key → α) (txs : List (List (Nat × α))) : Key → α :=
  txs.foldl (applyTx G) d

/-- The contents of the blocks `K` at the last commit are those of the disk `d` with the writes
    of the committed transactions. -/
def Replays (G : Geo) (d : Key → α) (K : Key → Prop) (m : Abs α) : Prop :=
  ∀ κ, G.Home κ → K κ → applyTxs G d m.txs κ = m.snap κ

/-! ### How far the commit has come -/

section

variable (G l) (V : Nat → α) (K : Key → Prop) (d : Key → α)

/-- The first `t` entries of header `l`, with contents `V`, are in the log. -/
structure Logged (t : Nat) (m : Abs α) : Prop where
  block : m.block = l
  replay : Replays G d K m
  coherent : Coherent G m
  val : ∀ b ∈ l, m.last (G.home b) = V b
  slots : ∀ j b, l[j]? = some b → j < t → m.view (G.slot j) = V b ∧ m.disk (G.slot j) = V b
  head : readHead (m.disk G.head) = []
  disk : ∀ κ, G.Home κ → K κ → m.disk κ = m.snap κ
  rest : ∀ κ, G.Home κ → K κ → ¬ G.InHeader l κ → m.last κ = m.snap κ

/-- Header `l` is on the disk, its entries with contents `V` are in the log, and the first `t` of
    them in their places.  If the machine is `live`, the blocks already have these contents for
    whoever reads them. -/
structure Installed (live : Prop) (t : Nat) (m : Abs α) : Prop where
  block : m.block = l
  replay : Replays G d K m
  head : readHead (m.disk G.head) = l
  slots : ∀ j b, l[j]? = some b → m.view (G.slot j) = V b ∧ m.disk (G.slot j) = V b
  val : ∀ b ∈ l, m.last (G.home b) = V b ∧ m.snap (G.home b) = V b
  seen : ∀ j b, l[j]? = some b → j < t ∨ live → m.view (G.home b) = V b
  done : ∀ j b, l[j]? = some b → j < t → m.disk (G.home b) = V b
  coherent : ∀ κ, G.Home κ → ¬ G.InHeader l κ → m.view κ = m.last κ
  rest : ∀ κ, G.Home κ → K κ → ¬ G.InHeader l κ → m.disk κ = m.snap κ ∧ m.last κ = m.snap κ

/-- All entries of header `l` are in their places, and the header in memory is empty, but not yet
    the one on the disk. -/
structure Erasing (m : Abs α) : Prop where
  block : m.block = []
  replay : Replays G d K m
  head : readHead (m.disk G.head) = l
  slots : ∀ j b, l[j]? = some b → m.disk (G.slot j) = V b
  val : ∀ b ∈ l, m.snap (G.home b) = V b
  coherent : Coherent G m
  rest : ∀ κ, G.Home κ → K κ → m.disk κ = m.snap κ ∧ m.last κ = m.snap κ

/-- The header is empty again. -/
structure Finished (m : Abs α) : Prop where
  block : m.block = []
  replay : Replays G d K m
  head : readHead (m.disk G.head) = []
  coherent : Coherent G m
  rest : ∀ κ, G.Home κ → K κ → m.disk κ = m.snap κ ∧ m.last κ = m.snap κ

end

section

variable {V : Nat → α} {K : Key → Prop} {d : Key → α} {live : Prop}
  {t : Nat} {m m' : Abs α} {R : Abs α → Abs α → Prop}
variable {b : Nat}

theorem own_head : G.Own l G.head := .inl head_not_home

theorem own_home (hb : b ∈ l) : G.Own l (G.home b) := .inr ⟨rfl, hb⟩

theorem own_slot (hl : Header G l) (hj : l[j]? = some b) {l' : List Nat} : G.Own l' (G.slot j) :=
  .inl (hl.slot_not_home (List.getElem?_eq_some_iff.mp hj).1)

theorem mem_of_get (hj : l[j]? = some b) : b ∈ l := mem_of_getElem? hj

omit [BlockData α] in
/-- Others keep it. -/
theorem Coherent.others (h : Coherent G m) (ho : Others G K m m') : Coherent G m' :=
  fun κ hκ => ho.coherent κ hκ (h κ hκ)

omit [BlockData α] in
/-- So does the log. -/
theorem Replays.others (h : Replays G d K m) (ho : Others G K m m') : Replays G d K m' := by
  intro κ hκ hK
  rw [ho.txs, ho.snap]
  exact h κ hκ hK

/-- What holds all the time. -/
def Steady (G : Geo) (d : Key → α) (K : Key → Prop) (live : Prop) (m : Abs α) : Prop :=
  (live → Coherent G m) ∧ Replays G d K m ∧ Recoverable G K m

/-- With an empty header on the disk, the blocks have to be in their places. -/
theorem steady_of_empty (hc : Coherent G m) (hr : Replays G d K m)
    (hhead : readHead (m.disk G.head) = [])
    (hdisk : ∀ κ, G.Home κ → K κ → m.disk κ = m.snap κ) : Steady G d K live m := by
  refine ⟨fun _ => hc, hr, ?_, ?_, ?_⟩ <;> rw [hhead]
  · exact header_nil
  · exact nofun
  · exact fun κ hκ hK _ => hdisk κ hκ hK

theorem Logged.steady (h : Logged G l V K d t m) : Steady G d K live m :=
  steady_of_empty h.coherent h.replay h.head h.disk

theorem Finished.steady (h : Finished G K d m) : Steady G d K live m :=
  steady_of_empty h.coherent h.replay h.head fun κ hκ hK => (h.rest κ hκ hK).1

theorem Installed.steady (hl : Header G l) (h : Installed G l V K d live t m) :
    Steady G d K live m := by
  refine ⟨fun hlive κ hκ => ?_, h.replay, ?_, ?_, ?_⟩
  · by_cases hin : G.InHeader l κ
    · obtain ⟨j, hj⟩ := getElem?_of_mem hin.2
      have hκ' : κ = G.home κ.2 := Prod.ext hin.1 rfl
      rw [hκ', h.seen j κ.2 hj (.inr hlive), (h.val κ.2 hin.2).1]
    · exact h.coherent κ hκ hin
  · rw [h.head]
    exact hl
  · rw [h.head]
    intro j b hj
    rw [(h.slots j b hj).2, (h.val b (mem_of_get hj)).2]
  · rw [h.head]
    exact fun κ hκ hK hin => (h.rest κ hκ hK hin).1

theorem Erasing.steady (hl : Header G l) (h : Erasing G l V K d m) : Steady G d K live m := by
  refine ⟨fun _ => h.coherent, h.replay, ?_, ?_, ?_⟩ <;> rw [h.head]
  · exact hl
  · intro j b hj
    rw [h.slots j b hj, h.val b (mem_of_get hj)]
  · exact fun κ hκ hK _ => (h.rest κ hκ hK).1

/-! ### What the others keep -/

section

variable (hR : ∀ m m', R m m' → Others G K m m')
include hR

theorem logged_stays (hl : Header G l) :
    Stays R (Steady G d K live) (Logged G l V K d t) := by
  refine ⟨fun m m' h ho => ?_, fun _ h => h.steady⟩
  replace ho := hR m m' ho
  have hb := h.block
  refine ⟨ho.block.trans h.block, h.replay.others ho, h.coherent.others ho, ?_, ?_, ?_, ?_, ?_⟩
  · intro b hbl
    rw [ho.last _ (.inl (hb ▸ own_home hbl))]
    exact h.val b hbl
  · intro j b hj ht
    rw [ho.view _ (own_slot hl hj), ho.disk _ (.inl (own_slot hl hj))]
    exact h.slots j b hj ht
  · rw [ho.disk _ (.inl own_head)]
    exact h.head
  · intro κ hκ hK
    rw [ho.disk κ (.inr hK), ho.snap]
    exact h.disk κ hκ hK
  · intro κ hκ hK hin
    rw [ho.last κ (.inr hK), ho.snap]
    exact h.rest κ hκ hK hin

/-- Others keep it. -/
theorem installed_stays (hl : Header G l) :
    Stays R (Steady G d K live) (Installed G l V K d live t) := by
  refine ⟨fun m m' h ho => ?_, fun _ h => h.steady hl⟩
  replace ho := hR m m' ho
  have hb := h.block
  refine ⟨ho.block.trans h.block, h.replay.others ho, ?_, ?_, ?_, ?_, ?_, ?_, ?_⟩
  · rw [ho.disk _ (.inl own_head)]
    exact h.head
  · intro j b hj
    rw [ho.view _ (own_slot hl hj), ho.disk _ (.inl (own_slot hl hj))]
    exact h.slots j b hj
  · intro b hbl
    rw [ho.last _ (.inl (hb ▸ own_home hbl)), ho.snap]
    exact h.val b hbl
  · intro j b hj ht
    rw [ho.view _ (hb ▸ own_home (mem_of_get hj))]
    exact h.seen j b hj ht
  · intro j b hj ht
    rw [ho.disk _ (.inl (hb ▸ own_home (mem_of_get hj)))]
    exact h.done j b hj ht
  · intro κ hκ hin
    exact ho.coherent κ hκ (h.coherent κ hκ hin)
  · intro κ hκ hK hin
    rw [ho.disk κ (.inr hK), ho.last κ (.inr hK), ho.snap]
    exact h.rest κ hκ hK hin

/-- Others keep it. -/
theorem erasing_stays (hl : Header G l) :
    Stays R (Steady G d K live) (Erasing G l V K d) := by
  refine ⟨fun m m' h ho => ?_, fun _ h => h.steady hl⟩
  replace ho := hR m m' ho
  refine ⟨ho.block.trans h.block, h.replay.others ho, ?_, ?_, ?_, h.coherent.others ho, ?_⟩
  · rw [ho.disk _ (.inl own_head)]
    exact h.head
  · intro j b hj
    rw [ho.disk _ (.inl (own_slot hl hj))]
    exact h.slots j b hj
  · rw [ho.snap]
    exact h.val
  · intro κ hκ hK
    rw [ho.disk κ (.inr hK), ho.last κ (.inr hK), ho.snap]
    exact h.rest κ hκ hK

theorem finished_stays : Stays R (Steady G d K live) (Finished G K d : Abs α → Prop) := by
  refine ⟨fun m m' h ho => ?_, fun _ h => h.steady⟩
  replace ho := hR m m' ho
  refine ⟨ho.block.trans h.block, h.replay.others ho, ?_, h.coherent.others ho, ?_⟩
  · rw [ho.disk _ (.inl own_head)]
    exact h.head
  · intro κ hκ hK
    rw [ho.disk κ (.inr hK), ho.last κ (.inr hK), ho.snap]
    exact h.rest κ hκ hK

/-- So is a property of a block of the commit's own. -/
theorem Stays.and_view {A : Abs α → Prop} {κ : Key} (hA : Stays R (Steady G d K live) A)
    (hκ : ∀ m, A m → G.Own m.block κ) (p : α → Prop) :
    Stays R (Steady G d K live) (fun m => A m ∧ p (m.view κ)) := by
  refine ⟨fun m m' h ho => ⟨hA.stable m m' h.1 ho, ?_⟩, fun m h => hA.inv m h.1⟩
  rw [(hR m m' ho).view κ (hκ m h.1)]
  exact h.2

end

end

/-! ### The loops -/

section

variable {V : Nat → α} {K : Key → Prop} {d : Key → α} {live : Prop}
  {Q : Abs α → Prop} {T : List Instr} {m : Abs α} {κ : Key} {t b : Nat} {R : Abs α → Abs α → Prop}
variable {e : Key → α}

theorem bread_skips : ∀ x ∈ bread κ, ∀ (m : Abs α) T, m.exec G T x = (m, T) := by
  simp [bread, exec]

theorem brelse_skips : ∀ x ∈ brelse κ, ∀ (m : Abs α) T, m.exec G T x = (m, T) := by
  simp [brelse, exec]

theorem record_ne (hκ : κ ≠ G.head) (m : Abs α) : m.record G κ = m := by
  unfold record
  rw [if_neg (fun h => hκ h.1)]

theorem slot_ne_home (hl : Header G l) (hj : l[j]? = some b) (hκ : G.Home κ) : G.slot j ≠ κ :=
  fun he => hl.slot_not_home (List.getElem?_eq_some_iff.mp hj).1 (he ▸ hκ)

theorem ne_home_of (hb : l[t]? = some b) (hin : ¬ G.InHeader l κ) : κ ≠ G.home b := by
  rintro rfl
  exact hin ⟨rfl, mem_of_get hb⟩

section

variable (hl : Header G l) (hb : l[t]? = some b)
include hl hb

/-- An entry of the log is copied to its block. -/
theorem Installed.copy (h : Installed G l V K d live t m) :
    Installed G l V K d live t { m with view := update m.view (G.home b) (m.view (G.slot t)) } := by
  have hv : m.view (G.slot t) = V b := (h.slots t b hb).1
  have hhome := hl.home b (mem_of_get hb)
  refine ⟨h.block, h.replay, h.head, ?_, h.val, ?_, h.done, ?_, h.rest⟩
  · intro j c hj
    show update m.view (G.home b) _ (G.slot j) = V c ∧ _
    rw [update_of_ne (slot_ne_home hl hj hhome)]
    exact h.slots j c hj
  · intro j c hj ht
    show update m.view (G.home b) _ (G.home c) = V c
    by_cases hcb : G.home c = G.home b
    · rw [hcb, update_self, hv, show c = b from congrArg snd hcb]
    · rw [update_of_ne hcb]
      exact h.seen j c hj ht
  · intro κ hκ hin
    show update m.view (G.home b) _ κ = m.last κ
    rw [update_of_ne (ne_home_of hb hin)]
    exact h.coherent κ hκ hin

/-- The block of an entry is written. -/
theorem Installed.write (h : Installed G l V K d live t m) (hv : m.view (G.home b) = V b) :
    Installed G l V K d live (t + 1)
      { m with disk := update m.disk (G.home b) (m.view (G.home b)) } := by
  have hhome := hl.home b (mem_of_get hb)
  -- an entry up to `t` is an earlier one, or this one
  refine ⟨h.block, h.replay, ?_, ?_, h.val, ?_, ?_, h.coherent, ?_⟩
  · show readHead (update m.disk (G.home b) _ G.head) = l
    rw [update_of_ne (Header.ne_of_home hhome head_not_home).symm]
    exact h.head
  · intro j c hj
    show _ ∧ update m.disk (G.home b) _ (G.slot j) = V c
    rw [update_of_ne (slot_ne_home hl hj hhome)]
    exact h.slots j c hj
  · grind [h.seen]
  · intro j c hj ht
    show update m.disk (G.home b) _ (G.home c) = V c
    by_cases hcb : G.home c = G.home b
    · rw [hcb, update_self, hv, show c = b from congrArg snd hcb]
    · grind [update_of_ne, h.done]
  · intro κ hκ hK hin
    show update m.disk (G.home b) _ κ = m.snap κ ∧ _
    rw [update_of_ne (ne_home_of hb hin)]
    exact h.rest κ hκ hK hin

/-- The contents of a block are copied to its entry of the log. -/
theorem Logged.copy (h : Logged G l V K d t m) :
    Logged G l V K d t { m with view := update m.view (G.slot t) (m.view (G.home b)) } := by
  refine ⟨h.block, h.replay, ?_, h.val, ?_, h.head, h.disk, h.rest⟩
  · intro κ hκ
    show update m.view (G.slot t) _ κ = m.last κ
    rw [update_of_ne (slot_ne_home hl hb hκ).symm]
    exact h.coherent κ hκ
  · intro j c hj ht
    show update m.view (G.slot t) _ (G.slot j) = V c ∧ _
    rw [update_of_ne (Header.slot_ne_slot (by omega))]
    exact h.slots j c hj ht

/-- An entry of the log is written. -/
theorem Logged.write (h : Logged G l V K d t m) (hv : m.view (G.slot t) = V b) :
    Logged G l V K d (t + 1) { m with disk := update m.disk (G.slot t) (m.view (G.slot t)) } := by
  refine ⟨h.block, h.replay, h.coherent, h.val, ?_, ?_, ?_, h.rest⟩
  · intro j c hj ht
    show _ ∧ update m.disk (G.slot t) _ (G.slot j) = V c
    rcases Nat.lt_succ_iff_lt_or_eq.mp ht with ht | rfl
    · rw [update_of_ne (Header.slot_ne_slot (by omega))]
      exact h.slots j c hj ht
    · simp_all
  · show readHead (update m.disk (G.slot t) _ G.head) = []
    rw [update_of_ne Header.slot_ne_head.symm]
    exact h.head
  · intro κ hκ hK
    show update m.disk (G.slot t) _ κ = m.snap κ
    rw [update_of_ne (slot_ne_home hl hb hκ).symm]
    exact h.disk κ hκ hK

end

section

variable (hR : ∀ m m', R m m' → Others G K m m')
include hR

/-- A loop over the entries from `t` on that copies block `src` to block `dst` and writes it, given
    what holds (`A`) when so many entries are done. -/
theorem loop_safe {A : Nat → Abs α → Prop} {loop : Nat → Instr} {src dst : Nat → Nat → Key}
    {κ₁ κ₂ : Nat → Nat → Key} (hA : ∀ t, Stays R (Steady G d K live) (A t))
    (hblock : ∀ t m, A t m → m.block = l)
    (hexec : ∀ t (m : Abs α) T, m.exec G T (loop t) = match m.block[t]? with
      | some b => (m, bread (G.slot t) ++ bread (G.home b) ++
          [.copy (dst t b) (src t b), .write (dst t b)] ++
          brelse (κ₁ t b) ++ brelse (κ₂ t b) ++ loop (t + 1) :: T)
      | none => (m, T))
    (hdst : ∀ t b, l[t]? = some b → dst t b ≠ G.head ∧ G.Own l (dst t b))
    (hcopy : ∀ t b m, l[t]? = some b → A t m →
      A t { m with view := update m.view (dst t b) (m.view (src t b)) } ∧ m.view (src t b) = V b)
    (hwrite : ∀ t b m, l[t]? = some b → A t m → m.view (dst t b) = V b →
      A (t + 1) { m with disk := update m.disk (dst t b) (m.view (dst t b)) })
    (hT : ∀ m, A l.length m → Safe (Abs.exec G) R (Steady G d K live) Q m T) (ht : t ≤ l.length)
    (hm : A t m) : Safe (Abs.exec G) R (Steady G d K live) Q m (loop t :: T) := by
  -- down from the number of entries that are left
  obtain ⟨n, hn⟩ : ∃ n, l.length = t + n := ⟨l.length - t, by omega⟩
  induction n generalizing t m with
  | zero =>
    refine Safe.next (hA t) (fun m hm => ?_) hm
    have hnone : m.block[t]? = none := by
      rw [hblock t m hm]
      exact getElem?_eq_none (by omega)
    rw [hexec, hnone]
    exact hT m (hn ▸ hm)
  | succ n ih =>
    obtain ⟨b, hb⟩ : ∃ b, l[t]? = some b := ⟨l[t], getElem?_eq_getElem (by omega)⟩
    obtain ⟨hhead, hown⟩ := hdst t b hb
    refine Safe.next (hA t) (fun m hm => ?_) hm
    have hsome : m.block[t]? = some b := by rw [hblock t m hm, hb]
    simp only [hexec, hsome, append_assoc, cons_append, nil_append]
    refine Safe.skip bread_skips (hA t) (fun m hm => ?_) hm
    refine Safe.skip bread_skips (hA t) (fun m hm => ?_) hm
    refine Safe.next (hA t) (fun m hm => ?_) hm
    have hstays := Stays.and_view hR (hA t) (fun m h => hblock t m h ▸ hown) (fun v => v = V b)
    obtain ⟨hm1, hv⟩ := hcopy t b m hb hm
    refine Safe.next hstays (fun m hm => ?_) ⟨hm1, (update_self ..).trans hv⟩
    simp only [exec, record_ne hhead]
    refine Safe.skip brelse_skips (hA (t + 1)) (fun m hm => ?_) (hwrite t b m hb hm.1 hm.2)
    refine Safe.skip brelse_skips (hA (t + 1)) (fun m hm => ?_) hm
    exact ih (by omega) hm (by omega)

/-- `install_trans` -/
theorem install_safe (hl : Header G l)
    (hT : ∀ m, Installed G l V K d live l.length m → Safe (Abs.exec G) R (Steady G d K live) Q m T)
    (hm : Installed G l V K d live 0 m) :
    Safe (Abs.exec G) R (Steady G d K live) Q m (.install 0 :: T) :=
  loop_safe (A := Installed G l V K d live) hR (fun _ => installed_stays hR hl)
    (fun _ _ h => h.block) (fun _ _ _ => by rw [exec]; rfl)
    (fun _ b hb => ⟨Header.ne_of_home (hl.home b (mem_of_get hb)) head_not_home,
      own_home (mem_of_get hb)⟩)
    (fun t b _ hb h => ⟨h.copy hl hb, (h.slots t b hb).1⟩) (fun _ _ _ hb h hv => h.write hl hb hv)
    hT (Nat.zero_le _) hm

/-- `write_log` -/
theorem writeLog_safe (hl : Header G l)
    (hT : ∀ m, Logged G l V K d l.length m → Safe (Abs.exec G) R (Steady G d K live) Q m T)
    (hm : Logged G l V K d 0 m) : Safe (Abs.exec G) R (Steady G d K live) Q m (.writeLog 0 :: T) :=
  loop_safe (A := Logged G l V K d) hR (fun _ => logged_stays hR hl) (fun _ _ h => h.block)
    (fun _ _ _ => by rw [exec]; rfl)
    (fun _ _ hb => ⟨Header.slot_ne_head, own_slot hl hb⟩)
    (fun _ b _ hb h => ⟨h.copy hl hb,
      (h.coherent _ (hl.home b (mem_of_get hb))).trans (h.val b (mem_of_get hb))⟩)
    (fun _ _ _ hb h hv => h.write hl hb hv) hT (Nat.zero_le _) hm

end

/-! ### The header -/

/-- The header is copied to its buffer. -/
theorem Logged.setHead (h : Logged G l V K d t m) (v : α) :
    Logged G l V K d t { m with view := update m.view G.head v } := by
  refine ⟨h.block, h.replay, ?_, h.val, ?_, h.head, h.disk, h.rest⟩
  · intro κ hκ
    show update m.view G.head v κ = m.last κ
    rw [update_of_ne (Header.ne_of_home hκ head_not_home)]
    exact h.coherent κ hκ
  · intro j b hj ht'
    show update m.view G.head v (G.slot j) = V b ∧ _
    rw [update_of_ne Header.slot_ne_head]
    exact h.slots j b hj ht'

omit [BlockData α] in
/-- One transaction more. -/
theorem applyTxs_append (txs : List (List (Nat × α))) (tx : List (Nat × α)) :
    applyTxs G d (txs ++ [tx]) = applyTx G (applyTxs G d txs) tx := by
  unfold applyTxs
  rw [foldl_append]
  rfl

omit [BlockData α] in
/-- A transaction writes no other blocks than its own. -/
theorem applyTx_not_mem (hin : ¬ G.InHeader l κ) :
    applyTx G e (l.map fun b => (b, m.last (G.home b))) κ = e κ := by
  unfold applyTx
  induction l generalizing e with
  | nil => rfl
  | cons b l ih =>
    have hne : κ ≠ G.home b := by
      rintro rfl
      exact hin ⟨rfl, mem_cons_self ..⟩
    rw [map_cons, foldl_cons, ih (fun h => hin ⟨h.1, mem_cons_of_mem _ h.2⟩), update_of_ne hne]

omit [BlockData α] in
theorem applyTx_mem (hin : G.InHeader l κ) :
    applyTx G e (l.map fun b => (b, m.last (G.home b))) κ = m.last κ := by
  induction l generalizing e with
  | nil => cases hin.2
  | cons b l ih =>
    by_cases hl : G.InHeader l κ
    · exact ih hl
    · have hκ : κ = G.home b := by
        rcases mem_cons.mp hin.2 with hb | hb
        · exact Prod.ext hin.1 hb
        · exact absurd ⟨hin.1, hb⟩ hl
      show applyTx G (update e (G.home b) (m.last (G.home b))) _ κ = _
      rw [applyTx_not_mem hl, hκ, update_self]

/-- The transaction is committed. -/
theorem Logged.commit (h : Logged G l V K d l.length m) (hl : Header G l) (hne : l ≠ [])
    (hv : readHead (m.view G.head) = l) :
    Installed G l V K d live 0
      (Abs.record G { m with disk := update m.disk G.head (m.view G.head) } G.head) := by
  have hcond : G.head = G.head ∧ readHead (update m.disk G.head (m.view G.head) G.head) ≠ [] := by
    rw [update_self, hv]
    exact ⟨rfl, hne⟩
  unfold record
  rw [if_pos hcond]
  refine ⟨h.block, ?_, ?_, ?_, ?_, ?_, nofun, fun κ hκ _ => h.coherent κ hκ, ?_⟩
  · intro κ hκ hK
    show applyTxs G d (m.txs ++ [m.block.map fun b => (b, m.last (G.home b))]) κ = m.last κ
    rw [h.block, applyTxs_append]
    by_cases hin : G.InHeader l κ
    · exact applyTx_mem hin
    · rw [applyTx_not_mem hin, h.replay κ hκ hK, h.rest κ hκ hK hin]
  · simp [*]
  · intro j b hj
    have hlt := (List.getElem?_eq_some_iff.mp hj).1
    show m.view (G.slot j) = V b ∧ update m.disk G.head _ (G.slot j) = V b
    rw [update_of_ne Header.slot_ne_head]
    exact h.slots j b hj hlt
  · exact fun b hb => ⟨h.val b hb, h.val b hb⟩
  · intro j b hj _
    have hb := mem_of_get hj
    exact (h.coherent _ (hl.home b hb)).trans (h.val b hb)
  · intro κ hκ hK hin
    show update m.disk G.head _ κ = m.last κ ∧ m.last κ = m.last κ
    rw [update_of_ne (Header.ne_of_home hκ head_not_home), h.disk κ hκ hK, h.rest κ hκ hK hin]
    exact ⟨rfl, rfl⟩

/-- The header in memory is cleared. -/
theorem Installed.clear (h : Installed G l V K d live l.length m) :
    Erasing G l V K d { m with block := [] } := by
  -- a block of the header is in its place, any other was
  have hblock (κ : Key) (hin : G.InHeader l κ) : ∃ j, l[j]? = some κ.2 ∧ j < l.length := by
    obtain ⟨j, hj⟩ := getElem?_of_mem hin.2
    exact ⟨j, hj, (List.getElem?_eq_some_iff.mp hj).1⟩
  refine ⟨rfl, h.replay, h.head, fun j b hj => (h.slots j b hj).2,
    fun b hb => (h.val b hb).2, ?_, ?_⟩
  · intro κ hκ
    by_cases hin : G.InHeader l κ
    · obtain ⟨j, hj, hlt⟩ := hblock κ hin
      have hκ' : κ = G.home κ.2 := Prod.ext hin.1 rfl
      show m.view κ = m.last κ
      rw [hκ', h.seen j κ.2 hj (.inl hlt), (h.val κ.2 hin.2).1]
    · exact h.coherent κ hκ hin
  · intro κ hκ hK
    by_cases hin : G.InHeader l κ
    · obtain ⟨j, hj, hlt⟩ := hblock κ hin
      have hκ' : κ = G.home κ.2 := Prod.ext hin.1 rfl
      show m.disk κ = m.snap κ ∧ m.last κ = m.snap κ
      rw [hκ', h.done j κ.2 hj hlt, (h.val κ.2 hin.2).1, (h.val κ.2 hin.2).2]
      exact ⟨rfl, rfl⟩
    · exact h.rest κ hκ hK hin

theorem Erasing.setHead (h : Erasing G l V K d m) (v : α) :
    Erasing G l V K d { m with view := update m.view G.head v } := by
  refine ⟨h.block, h.replay, h.head, h.slots, h.val, fun κ hκ => ?_, h.rest⟩
  show update m.view G.head v κ = m.last κ
  rw [update_of_ne (Header.ne_of_home hκ head_not_home)]
  exact h.coherent κ hκ

/-- The header on the disk is erased. -/
theorem Erasing.erase (h : Erasing G l V K d m) (hv : readHead (m.view G.head) = []) :
    Finished G K d
      (Abs.record G { m with disk := update m.disk G.head (m.view G.head) } G.head) := by
  have hcond : ¬ (G.head = G.head ∧
      readHead (update m.disk G.head (m.view G.head) G.head) ≠ []) := by
    rw [update_self, hv]
    simp
  unfold record
  rw [if_neg hcond]
  refine ⟨h.block, h.replay, ?_, h.coherent, fun κ hκ hK => ?_⟩
  · simp [*]
  · show update m.disk G.head _ κ = m.snap κ ∧ m.last κ = m.snap κ
    rw [update_of_ne (Header.ne_of_home hκ head_not_home)]
    exact h.rest κ hκ hK

section

variable (hR : ∀ m m', R m m' → Others G K m m')
include hR

/-- `write_head`, given what holds before (`A`) and after (`B`) the write. -/
theorem writeHead_safe {A B : Abs α → Prop} {block : List Nat} (hA : Stays R (Steady G d K live) A)
    (hB : Stays R (Steady G d K live) B) (hblock : ∀ m, A m → m.block = block)
    (hhead : Header G block) (hset : ∀ m v, A m → A { m with view := update m.view G.head v })
    (hwrite : ∀ m, A m → readHead (m.view G.head) = block →
      B (Abs.record G { m with disk := update m.disk G.head (m.view G.head) } G.head))
    (hT : ∀ m, B m → Safe (Abs.exec G) R (Steady G d K live) Q m T) (hm : A m) :
    Safe (Abs.exec G) R (Steady G d K live) Q m (writeHeadCode G ++ T) := by
  simp only [writeHeadCode, append_assoc, cons_append, nil_append]
  refine Safe.skip bread_skips hA (fun m hm => ?_) hm
  refine Safe.next hA (fun m hm => ?_) hm
  have hstays := Stays.and_view hR hA (fun _ _ => own_head) (fun v => readHead v = block)
  refine Safe.next hstays (fun m hm => ?_) ⟨hset m _ hm, ?_⟩
  · exact Safe.skip brelse_skips hB hT (hwrite m hm.1 hm.2)
  · show readHead (update m.view G.head _ G.head) = block
    rw [update_self, hblock m hm]
    exact hhead.read_write _

/-- The end of a commit and of a recovery: the entries are installed and the log is cleared. -/
theorem installAll_safe (hl : Header G l)
    (hT : ∀ m, Finished G K d m → Safe (Abs.exec G) R (Steady G d K live) Q m T)
    (hm : Installed G l V K d live 0 m) :
    Safe (Abs.exec G) R (Steady G d K live) Q m
      (.install 0 :: .clear :: (writeHeadCode G ++ T)) := by
  refine install_safe hR hl (fun m hm => ?_) hm
  refine Safe.next (installed_stays hR hl) (fun m hm => ?_) hm
  exact writeHead_safe hR (erasing_stays hR hl) (finished_stays hR) (fun _ h => h.block) header_nil
    (fun _ v h => h.setHead v) (fun _ h hv => h.erase hv) hT hm.clear

/-- `commit`, with something to commit. -/
theorem commit_safe (hl : Header G l) (hne : l ≠ [])
    (hT : ∀ m, Finished G K d m → Safe (Abs.exec G) R (Steady G d K live) Q m T)
    (hm : Logged G l V K d 0 m) :
    Safe (Abs.exec G) R (Steady G d K live) Q m (commitCode G ++ T) := by
  simp only [commitCode, append_assoc, cons_append, nil_append]
  refine writeLog_safe hR hl (fun m hm => ?_) hm
  refine writeHead_safe hR (logged_stays hR hl) (installed_stays hR hl) (fun _ h => h.block) hl
    (fun _ v h => h.setHead v) (fun _ h hv => h.commit hl hne hv) (fun m hm => ?_) hm
  exact installAll_safe hR hl hT hm

end

/-- An empty transaction is finished. -/
theorem Logged.finished (h : Logged G [] V K d t m) : Finished G K d { m with block := [] } :=
  ⟨rfl, h.replay, h.head, h.coherent, fun κ hκ hK =>
    ⟨h.disk κ hκ hK, h.rest κ hκ hK (fun hin => nomatch hin.2)⟩⟩

/-- The end of the last operation, from `commit` on. -/
theorem end_safe (hR : ∀ m m', R m m' → Others G K m m') (hl : Header G l)
    (hm : Logged G l V K d 0 m) :
    Safe (Abs.exec G) R (Steady G d K live) (Finished G K d) m [.commit, .finish] := by
  have hfinish (m : Abs α) (hm : Finished G K d m) :
      Safe (exec G) R (Steady G d K live) (Finished G K d) m [.finish] := by
    refine Safe.next (finished_stays hR) (fun m hm => ?_) hm
    exact Safe.done (finished_stays hR) (fun _ h => h) hm
  refine Safe.next (logged_stays hR hl) (fun m hm => ?_) hm
  rw [exec, hm.block]
  split
  · subst l
    refine Safe.next (logged_stays hR hl) (fun m hm => ?_) hm
    exact hfinish _ hm.finished
  · exact commit_safe hR hl ‹_› hfinish hm

/-- `recover_from_log`, with nobody else there. -/
theorem recover_safe (hl : Header G l) (hT : ∀ m, Finished G K d m → Q m)
    (hm : Installed G l V K d live 0 { m with block := l }) (hv : readHead (m.view G.head) = l) :
    Safe (Abs.exec G) Eq (Steady G d K live) Q m (recoverCode G) := by
  simp only [recoverCode, readHeadCode, append_assoc, cons_append, nil_append]
  have hR (m m' : Abs α) (h : m = m') : Others G K m m' := h ▸ .refl m
  have hstays : Stays Eq (Steady G d K live) (fun m : Abs α =>
      Installed G l V K d live 0 { m with block := l } ∧ readHead (m.view G.head) = l) := by
    refine ⟨by rintro m _ h rfl; exact h, fun m h => ?_⟩
    obtain ⟨hc, hr, hrec⟩ := h.1.steady hl
    exact ⟨hc, hr, hrec.header, hrec.slots, hrec.rest⟩
  refine Safe.skip bread_skips hstays (fun m hm => ?_) ⟨hm, hv⟩
  refine Safe.next hstays (fun m hm => ?_) hm
  have hm1 : Installed G l V K d live 0 { m with block := readHead (m.view G.head) } := by
    rw [hm.2]
    exact hm.1
  refine Safe.skip brelse_skips (installed_stays hR hl) (fun m hm => ?_) hm1
  refine installAll_safe hR hl (fun m hm => ?_) hm
  refine Safe.next (finished_stays hR) (fun m hm => ?_) hm
  exact Safe.done (finished_stays hR) hT hm

end

end Xv6.Logging
