import Xv6.Fs.Block
import Xv6.Lib.Owned

namespace Xv6.Fs

open BitVec Fin Function List Outcome Volume

/-!
# Who owns which block

* `Slot`, `slotAddr`, `table` — the places where block addresses are kept, and what is there;
* `Volume.Owns` — every block of the data area is used exactly when one place has its address;
* `Kept`, `Grown`, `getAddr_ok`, `bmap_ok` — a block is allocated for one place, and all others
  stay;
* `freeDirects_ok`, `freeBlocks_ok`, `itrunc_ok` — all blocks of an inode are given back.
-/

/-- A place of an inode that has the address of a block: one of its own, the last of which is for
    the indirect block, or one in the indirect block. -/
inductive Slot where
  | addr (k : Fin (NDIRECT + 1))
  | entry (j : Fin NINDIRECT)
  deriving DecidableEq

/-- The address of the indirect block. -/
def Dinode.indirect (d : Dinode) : Nat := d.addrs (Fin.last NDIRECT)

/-- An entry of the indirect block `a`, if there is one. -/
def entryAddr (block : Nat → Block) (a : Nat) (j : Fin NINDIRECT) : Nat :=
  if a = 0 then 0 else (block a j).toNat

/-- The address in a place. -/
def slotAddr (block : Nat → Block) (d : Dinode) : Slot → Nat
  | .addr k => d.addrs k
  | .entry j => entryAddr block d.indirect j

/-- The place for block `bn` of a file. -/
def dataSlot (bn : Nat) : Slot :=
  if h : bn < NDIRECT then .addr ⟨bn, Nat.lt_succ_of_lt h⟩
  else .entry (Fin.ofNat NINDIRECT (bn - NDIRECT))

/-- The addresses that allocated inodes have. -/
def table (block : Nat → Block) (dn : Nat → Dinode) (p : Nat × Slot) : Nat :=
  if (dn p.1).type = .free then 0 else slotAddr block (dn p.1) p.2

/-- Blocks of the data area are used exactly when one place has their address, where `dn` are the
    inodes that count. -/
def Volume.Owns (sb : Superblock) (v : Volume) (dn : Nat → Dinode) : Prop :=
  Owned sb.dataStart sb.size v.bit (table v.block dn)

section

variable {block block' : Nat → Block} {d d' : Dinode} {dn dn' : Nat → Dinode} {i j b : Nat}
  {σ τ : Slot}

theorem entryAddr_zero (block : Nat → Block) (j : Fin NINDIRECT) : entryAddr block 0 j = 0 := rfl

theorem entryAddr_of_ne {a : Nat} (h : a ≠ 0) (j : Fin NINDIRECT) :
    entryAddr block a j = (block a j).toNat := if_neg h

theorem entryAddr_blank (h : block b = fun _ => 0) (j : Fin NINDIRECT) :
    entryAddr block b j = 0 := by
  unfold entryAddr
  rw [h]
  split <;> rfl

/-- Only the indirect block matters. -/
theorem slotAddr_congr (h : d.indirect ≠ 0 → block' d.indirect = block d.indirect) :
    slotAddr block' d = slotAddr block d := by
  funext σ
  cases σ with
  | addr k => rfl
  | entry j =>
    by_cases hz : d.indirect = 0
    · simp only [slotAddr, hz, entryAddr_zero]
    · simp only [slotAddr, entryAddr_of_ne hz, h hz]

theorem slotAddr_of_addrs (h : d'.addrs = d.addrs) : slotAddr block d' = slotAddr block d := by
  funext σ
  cases σ <;> simp only [slotAddr, Dinode.indirect, h]

theorem table_of_type (h : (dn i).type ≠ .free) : table block dn (i, σ) = slotAddr block (dn i) σ :=
  if_neg h

theorem table_of_free (h : (dn i).type = .free) : table block dn (i, σ) = 0 := if_pos h

/-- The table changes in one place of one inode. -/
theorem table_update (hothers : ∀ j, j ≠ i → dn' j = dn j
      ∧ ((dn j).type ≠ .free → slotAddr block' (dn j) = slotAddr block (dn j)))
    (htype : (dn i).type ≠ .free) (htype' : (dn' i).type ≠ .free)
    (h : slotAddr block' (dn' i) = update (slotAddr block (dn i)) σ b) :
    table block' dn' = update (table block dn) (i, σ) b := by
  funext ⟨j, τ⟩
  by_cases hj : j = i
  · subst hj
    rw [table_of_type htype', h]
    by_cases hτ : τ = σ
    · rw [hτ, update_self, update_self]
    · grind [update_of_ne, table_of_type, Prod.mk.inj]
  · rw [update_of_ne (fun he => hj (Prod.mk.inj he).1)]
    obtain ⟨hd, hblock⟩ := hothers j hj
    unfold table
    rw [hd]
    split
    · rfl
    · rename_i hne
      rw [hblock hne]

/-- One of the inode's own places changes; when it is the one for the indirect block, that
    block has no entries before and after. -/
theorem slotAddr_update_addr (k : Fin (NDIRECT + 1)) (b : Nat)
    (h : k = Fin.last NDIRECT → d.indirect = 0 ∧ block b = fun _ => 0) :
    slotAddr block { d with addrs := update d.addrs k b }
      = update (slotAddr block d) (.addr k) b := by
  funext σ
  cases σ with
  | addr k' =>
    by_cases hk : k' = k
    · rw [hk, update_self]
      exact update_self ..
    · rw [update_of_ne (by simpa using hk)]
      exact update_of_ne hk ..
  | entry j =>
    rw [update_of_ne (by simp)]
    show entryAddr block (update d.addrs k b (last NDIRECT)) j = entryAddr block d.indirect j
    by_cases hk : k = last NDIRECT
    · obtain ⟨hz, hblock⟩ := h hk
      rw [hk, update_self, entryAddr_blank hblock, hz, entryAddr_zero]
    · rw [update_of_ne (Ne.symm hk)]
      rfl

/-- An entry of the indirect block changes. -/
theorem slotAddr_update_entry (block : Nat → Block) (h : d.indirect ≠ 0)
    (e : Fin NINDIRECT) (w : Word) :
    slotAddr (update block d.indirect (update (block d.indirect) e w)) d
      = update (slotAddr block d) (.entry e) w.toNat := by
  funext σ
  cases σ with
  | addr k =>
    rw [update_of_ne (by simp)]
    rfl
  | entry j =>
    simp only [slotAddr]
    rw [entryAddr_of_ne h, update_self]
    by_cases hj : j = e
    · rw [hj, update_self, update_self]
    · rw [update_of_ne hj, update_of_ne (by simpa using hj)]
      simp only [slotAddr]
      rw [entryAddr_of_ne h]

end

/-! ### Allocation -/

variable {sb : Superblock} {v v' : Volume} {i : Nat} {ip ip' : Dinode}
variable {ip'' : Dinode} {v'' : Volume} {block' : Nat → Block} {b bn : Nat}

/-- Inode `i`, whose copy in memory goes from `ip` to `ip'`, keeps the blocks it has, and so do
    the others. -/
structure Kept (sb : Superblock) (i : Nat) (v : Volume) (ip : Dinode) (v' : Volume) (ip' : Dinode) :
    Prop where
  owns : v'.Owns sb (update v.dinode i ip')
  rest : v' = { v with bit := v'.bit, block := v'.block }
  fields : ip' = { ip with addrs := ip'.addrs }
  keeps : ∀ σ, slotAddr v.block ip σ ≠ 0 → slotAddr v'.block ip' σ = slotAddr v.block ip σ
  others : ∀ j, j ≠ i → (v.dinode j).type ≠ .free →
    slotAddr v'.block (v.dinode j) = slotAddr v.block (v.dinode j)

theorem Kept.refl (h : v.Owns sb (update v.dinode i ip)) : Kept sb i v ip v ip :=
  ⟨h, rfl, rfl, fun _ _ => rfl, fun _ _ _ => rfl⟩

section

variable (h : Kept sb i v ip v' ip')
include h

theorem Kept.dinode : v'.dinode = v.dinode := by rw [h.rest]

theorem Kept.owns' : v'.Owns sb (update v'.dinode i ip') := by
  rw [h.dinode]
  exact h.owns

theorem Kept.type (htype : ip.type ≠ .free) : ip'.type ≠ .free := by
  rw [h.fields]
  exact htype

/-- One change after another. -/
theorem Kept.trans (h' : Kept sb i v' ip' v'' ip'') : Kept sb i v ip v'' ip'' := by
  refine ⟨h.dinode ▸ h'.owns, ?_, ?_, fun σ hσ => ?_, fun j hj ht => ?_⟩
  · rw [h'.rest, h.rest]
  · rw [h'.fields, h.fields]
  · rw [h'.keeps σ (by rw [h.keeps σ hσ]; exact hσ), h.keeps σ hσ]
  · have h2 := h'.others j hj (by rw [h.dinode]; exact ht)
    rw [h.dinode] at h2
    rw [h2, h.others j hj ht]

end

/-- What the allocation of blocks for inode `i` does: contents of blocks in use change in the
    indirect block only. -/
structure Grown (sb : Superblock) (i : Nat) (v : Volume) (ip : Dinode) (v' : Volume)
    (ip' : Dinode) :
    Prop extends Kept sb i v ip v' ip' where
  bits : ∀ b, v.bit b = true → v'.bit b = true
  indirect : ip'.indirect = ip.indirect ∨ v.bit ip'.indirect = false
  blocks : ∀ b, v.bit b = true → b ≠ ip.indirect → v'.block b = v.block b

theorem Grown.refl (h : v.Owns sb (update v.dinode i ip)) : Grown sb i v ip v ip :=
  ⟨.refl h, fun _ h => h, .inl rfl, fun _ _ _ => rfl⟩

/-- One after another. -/
theorem Grown.trans (h : Grown sb i v ip v' ip') (h' : Grown sb i v' ip' v'' ip'') :
    Grown sb i v ip v'' ip'' := by
  refine ⟨h.toKept.trans h'.toKept, fun b hb => h'.bits b (h.bits b hb), ?_, fun b hb hne => ?_⟩
  · rcases h'.indirect with h2 | h2
    · rw [h2]
      exact h.indirect
    · refine .inr ?_
      by_contra hne
      rw [h.bits _ (by simpa using hne)] at h2
      cases h2
  · rw [h'.blocks b (h.bits b hb), h.blocks b hb hne]
    -- the indirect block is the old one or was not in use
    rcases h.indirect with h2 | h2
    · rw [h2]
      exact hne
    · rintro rfl
      rw [h2] at hb
      cases hb

/-- An unused block is given to an empty place of inode `i`. -/
theorem Grown.of_claim (σ : Slot) (h : v.Owns sb (update v.dinode i ip)) (htype : ip.type ≠ .free)
    (hb : v.bit b = false) (hlt : b < sb.size) (hσ : slotAddr v.block ip σ = 0)
    (hfields : ip' = { ip with addrs := ip'.addrs })
    (hslots : slotAddr block' ip' = update (slotAddr v.block ip) σ b)
    (hblock : ∀ c, v.bit c = true → c ≠ ip.indirect → block' c = v.block c)
    (hind : ip'.indirect = ip.indirect ∨ v.bit ip'.indirect = false) :
    Grown sb i v ip { v with bit := update v.bit b true, block := block' } ip' := by
  have hself (d : Dinode) : update v.dinode i d i = d := update_self ..
  have htab {j : Nat} (hj : j ≠ i) (ht : (v.dinode j).type ≠ .free) (τ : Slot) :
      table v.block (update v.dinode i ip) (j, τ) = slotAddr v.block (v.dinode j) τ := by
    rw [table_of_type (by rw [update_of_ne hj]; exact ht), update_of_ne hj]
  -- the other inodes' indirect blocks are in use, and none is that of inode `i`
  have hothers (j : Nat) (hj : j ≠ i) (ht : (v.dinode j).type ≠ .free) :
      slotAddr block' (v.dinode j) = slotAddr v.block (v.dinode j) := by
    refine slotAddr_congr fun hne => ?_
    have hj' : table v.block (update v.dinode i ip) (j, .addr (last NDIRECT))
        = (v.dinode j).indirect := htab hj ht _
    refine hblock _ ?_ fun he => hj ?_
    · rw [← hj']
      exact h.marked _ (by rw [hj']; exact hne)
    · have hi : table v.block (update v.dinode i ip) (i, .addr (last NDIRECT)) = ip.indirect := by
        rw [table_of_type (by rw [hself]; exact htype), hself]
        rfl
      exact congrArg Prod.fst (h.inj _ _ (by rw [hj']; exact hne) ((hj'.trans he).trans hi.symm))
  refine ⟨⟨?_, rfl, hfields, fun τ hτ => ?_, hothers⟩, fun c hc => ?_, hind, hblock⟩
  · have htab : table block' (update v.dinode i ip')
        = update (table v.block (update v.dinode i ip)) (i, σ) b := by
      grind [table_update, update_of_ne]
    show Owned _ _ _ (table block' (update v.dinode i ip'))
    rw [htab]
    refine h.claim hlt hb ?_
    rw [table_of_type (by rw [hself]; exact htype), hself]
    exact hσ
  · rw [hslots, update_of_ne]
    rintro rfl
    exact hτ hσ
  · grind

/-- `balloc` finds an unused block, or there is none. -/
theorem balloc_ok (sb : Superblock) (v : Volume) : v.balloc sb = .panic .outOfBlocks
    ∨ ∃ b, v.bit b = false ∧ b < sb.size
      ∧ v.balloc sb = .ok (b, { v with bit := update v.bit b true }.bzero b) := by
  grind [balloc, mem_range.mp]

/-- The new inode's slots. -/
theorem table_self (block : Nat → Block) (dn : Nat → Dinode) (i : Nat) (σ : Slot)
    (htype : ip.type ≠ .free) : table block (update dn i ip) (i, σ) = slotAddr block ip σ := by
  rw [table_of_type (by rw [update_self]; exact htype), update_self]

/-- A block that inode `i` has the address of is in use. -/
theorem Volume.Owns.used (h : v.Owns sb (update v.dinode i ip)) (htype : ip.type ≠ .free) (σ : Slot)
    (hne : slotAddr v.block ip σ ≠ 0) : v.bit (slotAddr v.block ip σ) = true := by
  have hself := table_self v.block v.dinode i σ htype
  rw [← hself] at hne ⊢
  exact h.marked _ hne

/-- Block 0 is never free. -/
theorem Volume.Owns.ne_zero {dn : Nat → Dinode} (h : v.Owns sb dn) (hb : v.bit b = false) :
    b ≠ 0 := by
  have hlo := h.le_of_unused hb
  have hpos := h.pos
  omega

/-- A block for one of the inode's own places. -/
theorem getAddr_ok (h : v.Owns sb (update v.dinode i ip)) (htype : ip.type ≠ .free)
    (k : Fin (NDIRECT + 1)) : v.getAddr sb ip k = .panic .outOfBlocks
    ∨ ∃ ip' v', v.getAddr sb ip k = .ok (ip'.addrs k, ip', v') ∧ Grown sb i v ip v' ip'
      ∧ ip'.addrs k ≠ 0 := by
  unfold getAddr
  split
  · rename_i hz
    rcases balloc_ok sb v with hb | ⟨b, hb, hlt, hok⟩
    · rw [hb]
      exact .inl rfl
    · rw [hok]
      have hself : update ip.addrs k b k = b := update_self ..
      -- the block is not the indirect block, which is in use
      have hne (c : Nat) (hc : v.bit c = true) : c ≠ b := by
        rintro rfl
        rw [hb] at hc
        cases hc
      refine .inr ⟨{ ip with addrs := update ip.addrs k b },
        { v with bit := update v.bit b true }.bzero b,
        ?_, ?_, ?_⟩
      · show _ = ok (update ip.addrs k b k, _, _)
        rw [hself]
        rfl
      · refine Grown.of_claim (.addr k) h htype hb hlt hz rfl ?_
          (fun c hc _ => update_of_ne (hne c hc) ..) ?_
        · have hind (hk : k = last NDIRECT) : ip.addrs (last NDIRECT) = 0 := hk ▸ hz
          have hsame : slotAddr (update v.block b fun _ => 0) ip = slotAddr v.block ip :=
            slotAddr_congr fun hi => update_of_ne
              (hne _ (h.used htype (.addr (last NDIRECT)) hi)) ..
          rw [← hsame]
          exact slotAddr_update_addr k b fun hk => ⟨hind hk, update_self ..⟩
        · by_cases hk : k = last NDIRECT
          · refine .inr ?_
            show v.bit (update ip.addrs k b (last NDIRECT)) = false
            rw [hk, update_self]
            exact hb
          · exact .inl (update_of_ne (Ne.symm hk) ..)
      · exact fun he => h.ne_zero hb (hself.symm.trans he)
  · rename_i hne
    exact .inr ⟨ip, v, rfl, .refl h, hne⟩

/-- A blank block is entered into the indirect block. -/
theorem Grown.of_entry {e : Fin NINDIRECT} (h : v.Owns sb (update v.dinode i ip))
    (htype : ip.type ≠ .free) (hne : ip.indirect ≠ 0) (hz : slotAddr v.block ip (.entry e) = 0)
    (hb : v.bit b = false) (hlt : b < sb.size)
    (hblock : block' = update (update v.block b fun _ => 0) ip.indirect
      (update (v.block ip.indirect) e (BitVec.ofNat 32 b))) :
    Grown sb i v ip { v with bit := update v.bit b true, block := block' } ip
      ∧ slotAddr block' ip (.entry e) = b := by
  have hb32 : (BitVec.ofNat 32 b).toNat = b := by
    have := sb.size_lt
    rw [toNat_ofNat]
    omega
  have hslots : slotAddr block' ip = update (slotAddr v.block ip) (.entry e) b := by
    have hupdate := slotAddr_update_entry v.block hne e (BitVec.ofNat 32 b)
    rw [hb32] at hupdate
    rw [← hupdate, hblock]
    refine slotAddr_congr fun _ => ?_
    rw [update_self, update_self]
  refine ⟨Grown.of_claim (.entry e) h htype hb hlt hz rfl hslots
    (fun c hc hci => ?_) (.inl rfl), ?_⟩
  · have hcb : c ≠ b := by
      rintro rfl
      rw [hb] at hc
      cases hc
    rw [hblock, update_of_ne hci, update_of_ne hcb]
  · rw [hslots, update_self]

/-- Nothing happens if the file has block `bn`. -/
theorem bmap_of_ne (hbn : bn < MAXFILE) (hne : slotAddr v.block ip (dataSlot bn) ≠ 0) :
    v.bmap sb ip bn = .ok (slotAddr v.block ip (dataSlot bn), ip, v) := by
  unfold bmap
  unfold dataSlot at hne ⊢
  split
  · rename_i hlt
    rw [dif_pos hlt] at hne
    exact if_neg hne
  · rename_i hge
    have hlt : bn - NDIRECT < NINDIRECT := by
      unfold MAXFILE at hbn
      omega
    have he : Fin.ofNat NINDIRECT (bn - NDIRECT) = ⟨bn - NDIRECT, hlt⟩ :=
      Fin.ext (Nat.mod_eq_of_lt hlt)
    rw [dif_neg hge, he] at hne
    rw [dif_pos hlt, he]
    have hind : ip.indirect ≠ 0 := by
      intro hz
      simp only [slotAddr, hz, entryAddr_zero] at hne
      exact hne rfl
    have hget : v.getAddr sb ip (last NDIRECT) = .ok (ip.indirect, ip, v) := if_neg hind
    rw [hget]
    simp only [slotAddr, entryAddr_of_ne hind] at hne ⊢
    rw [ok_bind, if_neg fun hz => hne (congrArg BitVec.toNat hz)]

/-- A block for block `bn` of the file. -/
theorem bmap_ok (h : v.Owns sb (update v.dinode i ip)) (htype : ip.type ≠ .free)
    (hbn : bn < MAXFILE) : v.bmap sb ip bn = .panic .outOfBlocks
    ∨ ∃ ip' v', v.bmap sb ip bn = .ok (slotAddr v'.block ip' (dataSlot bn), ip', v')
      ∧ Grown sb i v ip v' ip' ∧ slotAddr v'.block ip' (dataSlot bn) ≠ 0 := by
  unfold bmap dataSlot
  split
  · exact getAddr_ok h htype _
  · have hlt : bn - NDIRECT < NINDIRECT := by
      unfold MAXFILE at hbn
      omega
    rw [dif_pos hlt]
    have he : Fin.ofNat NINDIRECT (bn - NDIRECT) = ⟨bn - NDIRECT, hlt⟩ :=
      Fin.ext (Nat.mod_eq_of_lt hlt)
    rw [he]
    generalize (⟨bn - NDIRECT, hlt⟩ : Fin NINDIRECT) = e
    -- first the indirect block, then the entry in it
    rcases getAddr_ok h htype (last NDIRECT) with hp | ⟨ip1, v1, hok, hg, hne⟩
    · rw [hp]
      exact .inl rfl
    · rw [hok]
      simp only [ok_bind]
      have htype1 := hg.type htype
      have howns := hg.owns'
      have hentry : slotAddr v1.block ip1 (.entry e) = (v1.block ip1.indirect e).toNat :=
        entryAddr_of_ne hne e
      split
      · rename_i hz
        have hzero : slotAddr v1.block ip1 (.entry e) = 0 := hentry.trans (congrArg BitVec.toNat hz)
        rcases balloc_ok sb v1 with hb | ⟨b, hb, hblt, hbok⟩
        · rw [hb]
          exact .inl rfl
        · rw [hbok]
          obtain ⟨hg2, hval⟩ := Grown.of_entry howns htype1 hne hzero hb hblt rfl
          refine .inr ⟨ip1, _, ?_, hg.trans hg2, fun he => howns.ne_zero hb (hval.symm.trans he)⟩
          rw [hval]
          rfl
      · rename_i hnz
        refine .inr ⟨ip1, v1, ?_, hg, ?_⟩
        · rw [hentry]
          rfl
        · rw [hentry]
          exact fun hz => hnz (eq_of_toNat_eq hz)

/-! ### Truncation

While the blocks of an inode are freed, `tab` is what is still to be freed: the indirect block keeps
its entries until it is freed itself. -/

/-- The table without the places `l` of inode `i`. -/
def without (tab : Nat × Slot → Nat) (i : Nat) (l : List Slot) (p : Nat × Slot) : Nat :=
  if p.1 = i ∧ p.2 ∈ l then 0 else tab p

section

variable {tab : Nat × Slot → Nat} {σ : Slot} {l : List Slot} {lo hi : Nat}
variable {τ : Slot}

theorem without_nil : without tab i [] = tab := by
  funext p
  simp [without]

theorem without_cons : without tab i (σ :: l) = without (update tab (i, σ) 0) i l := by
  funext ⟨j, τ⟩
  unfold without
  by_cases hj : j = i
  · grind
  · rw [update_of_ne (by simp [hj])]
    simp [hj]

/-- A place that is empty already. -/
theorem update_zero (h : tab (i, σ) = 0) : update tab (i, σ) 0 = tab := by
  rw [← h, update_eq_self]

/-- `bfree` of a block that has an owner. -/
theorem bfree_ok (h : Owned lo hi v.bit tab) (hne : tab (i, σ) ≠ 0) :
    ∃ bit, v.bfree (tab (i, σ)) = .ok { v with bit } ∧ Owned lo hi bit (update tab (i, σ) 0) := by
  refine ⟨_, ?_, h.release hne⟩
  unfold bfree
  rw [if_pos (h.marked _ hne)]

/-- One block goes back. -/
theorem freeDirect_ok (ip : Dinode) {k : Fin (NDIRECT + 1)} (h : Owned lo hi v.bit tab)
    (hk : tab (i, .addr k) = ip.addrs k) :
    ∃ bit, v.freeDirect ip k = .ok ({ ip with addrs := update ip.addrs k 0 }, { v with bit })
      ∧ Owned lo hi bit (update tab (i, .addr k) 0) := by
  unfold freeDirect
  split
  · rename_i hz
    refine ⟨v.bit, ?_, ?_⟩
    · have hsame : update ip.addrs k 0 = ip.addrs := by rw [← hz, update_eq_self]
      rw [hsame]
    · rw [update_zero (hk.trans hz)]
      exact h
  · rename_i hne
    obtain ⟨bit, hok, hown⟩ := bfree_ok h (hk ▸ hne)
    refine ⟨bit, ?_, hown⟩
    rw [← hk, hok]
    rfl

/-- The loop over the inode's own places. -/
theorem freeDirects_ok (ip : Dinode) (ks : List (Fin NDIRECT)) (h : Owned lo hi v.bit tab)
    (hks : ∀ k, tab (i, .addr k) = ip.addrs k) :
    ∃ addrs bit, ks.foldlM (fun (x : Dinode × Volume) k => x.2.freeDirect x.1 k.castSucc) (ip, v)
        = .ok ({ ip with addrs }, { v with bit })
      ∧ (∀ k, addrs k = if k ∈ ks.map Fin.castSucc then 0 else ip.addrs k)
      ∧ Owned lo hi bit (without tab i (ks.map fun k => .addr k.castSucc)) := by
  induction ks generalizing ip v tab with
  | nil =>
    refine ⟨ip.addrs, v.bit, rfl, fun k => by simp, ?_⟩
    rw [map_nil, without_nil]
    exact h
  | cons k ks ih =>
    obtain ⟨bit, hok, hown⟩ := freeDirect_ok ip h (hks k.castSucc)
    have hks' (k' : Fin (NDIRECT + 1)) : update tab (i, .addr k.castSucc) 0 (i, .addr k')
        = update ip.addrs k.castSucc 0 k' := by grind
    obtain ⟨addrs, bit', hok', haddrs, hown'⟩ :=
      ih (v := { v with bit }) { ip with addrs := update ip.addrs k.castSucc 0 } hown hks'
    refine ⟨addrs, bit', ?_, fun k' => ?_, ?_⟩
    · rw [foldlM_cons, hok]
      exact hok'
    · grind
    · rw [map_cons, without_cons]
      exact hown'

/-- The loop over the entries of the indirect block. -/
theorem freeBlocks_ok {a : Block} (js : List (Fin NINDIRECT)) (hnodup : js.Nodup)
    (h : Owned lo hi v.bit tab) (hjs : ∀ j ∈ js, tab (i, .entry j) = (a j).toNat) :
    ∃ bit, js.foldlM (fun (v : Volume) j => if a j = 0 then .ok v else v.bfree (a j).toNat) v
        = Outcome.ok { v with bit }
      ∧ Owned lo hi bit (without tab i (js.map .entry)) := by
  induction js generalizing v tab with
  | nil =>
    refine ⟨v.bit, rfl, ?_⟩
    rw [map_nil, without_nil]
    exact h
  | cons j js ih =>
    obtain ⟨hj, hnodup⟩ := nodup_cons.mp hnodup
    have hjj := hjs j (mem_cons_self ..)
    have hstep : ∃ bit, (if a j = 0 then .ok v else v.bfree (a j).toNat) = ok { v with bit }
        ∧ Owned lo hi bit (update tab (i, .entry j) 0) := by
      split
      · rename_i hz
        refine ⟨v.bit, rfl, ?_⟩
        rw [update_zero (hjj.trans (congrArg BitVec.toNat hz))]
        exact h
      · rename_i hne
        rw [← hjj]
        exact bfree_ok h fun hz => hne (eq_of_toNat_eq (hjj.symm.trans hz))
    obtain ⟨bit, hok, hown⟩ := hstep
    obtain ⟨bit', hok', hown'⟩ := ih (v := { v with bit }) hnodup hown fun j' hj' => by grind
    refine ⟨bit', ?_, ?_⟩
    · rw [foldlM_cons, hok]
      exact hok'
    · rw [map_cons, without_cons]
      exact hown'

theorem without_apply {j : Nat} (h : j ≠ i ∨ τ ∉ l) : without tab i l (j, τ) = tab (j, τ) := by
  unfold without
  rw [if_neg]
  rintro ⟨hj, hτ⟩
  rcases h with h | h
  · exact h hj
  · exact h hτ

theorem without_of_mem (h : τ ∈ l) : without tab i l (i, τ) = 0 := if_pos ⟨rfl, h⟩

theorem without_of_empty (h : ∀ σ ∈ l, tab (i, σ) = 0) : without tab i l = tab := by
  funext ⟨j, τ⟩
  unfold without
  split
  · rename_i hc
    obtain ⟨hj, hτ⟩ := hc
    rw [show j = i from hj]
    exact (h τ hτ).symm
  · rfl

/-- `itrunc` frees all blocks of the inode, and never a block that is free. -/
theorem itrunc_ok (h : v.Owns sb (update v.dinode i ip)) (htype : ip.type ≠ .free) :
    ∃ bit, v.itrunc i ip = .ok ({ ip with addrs := fun _ => 0, size := 0 },
        { v with bit }.iupdate i { ip with addrs := fun _ => 0, size := 0 })
      ∧ Owned sb.dataStart sb.size bit
          (fun p => if p.1 = i then 0 else table v.block v.dinode p) := by
  -- the inode's own places, but for the last
  obtain ⟨addrs, bit1, hok1, haddrs, hown1⟩ :=
    freeDirects_ok ip (finRange NDIRECT) h fun k => table_self _ _ i (.addr k) htype
  have hlast : addrs (last NDIRECT) = ip.indirect := by
    rw [haddrs, if_neg (by simp [castSucc_ne_last])]
    rfl
  have hcast (k : Fin NDIRECT) : addrs k.castSucc = 0 := by
    rw [haddrs, if_pos (mem_map_of_mem (mem_finRange k))]
  -- the entries of the indirect block
  have hok2 : ∃ bit2, { v with bit := bit1 }.freeEntries ip.indirect = .ok { v with bit := bit2 }
      ∧ Owned sb.dataStart sb.size bit2 (without (without (table v.block (update v.dinode i ip)) i
          ((finRange NDIRECT).map fun k => .addr k.castSucc)) i
          ((finRange NINDIRECT).map .entry)) := by
    have hentry (j : Fin NINDIRECT) : without (table v.block (update v.dinode i ip)) i
        ((finRange NDIRECT).map fun k => .addr k.castSucc) (i, .entry j)
        = entryAddr v.block ip.indirect j := by
      rw [without_apply (.inr (by simp)), table_self _ _ _ _ htype]
      rfl
    unfold freeEntries
    split
    · simp_all [without_of_empty, entryAddr_zero]
    · rename_i hne
      exact freeBlocks_ok (v := { v with bit := bit1 }) _ (nodup_finRange _) hown1
        fun j _ => (hentry j).trans (entryAddr_of_ne hne j)
  obtain ⟨bit2, hok2, hown2⟩ := hok2
  -- the indirect block
  obtain ⟨bit3, hok3, hown3⟩ := freeDirect_ok (v := { v with bit := bit2 }) { ip with addrs }
    (k := last NDIRECT) (i := i) hown2 (by
      rw [without_apply (.inr (by simp)), without_apply (.inr (by simp [castSucc_ne_last])),
        table_self _ _ _ _ htype]
      exact hlast.symm)
  have hzero : update addrs (last NDIRECT) 0 = fun _ => 0 := by
    funext k
    refine lastCases ?_ (fun k => ?_) k
    · exact update_self ..
    · rw [update_of_ne (castSucc_ne_last k), hcast]
  refine ⟨bit3, ?_, ?_⟩
  · simp_all [itrunc, ok_bind]
  · have htab : (fun p => if p.1 = i then 0 else table v.block v.dinode p)
        = update (without (without (table v.block (update v.dinode i ip)) i
          ((finRange NDIRECT).map fun k => .addr k.castSucc)) i
          ((finRange NINDIRECT).map .entry)) (i, .addr (last NDIRECT)) 0 := by
      funext ⟨j, σ⟩
      by_cases hj : j = i
      · subst hj
        simp only [if_true]
        cases σ with
        | addr k =>
          refine lastCases ?_ (fun k => ?_) k
          · rw [update_self]
          · rw [update_of_ne (by simp [castSucc_ne_last]),
              without_apply (.inr (by simp)), without_of_mem (by simp)]
        | entry e =>
          rw [update_of_ne (by simp), without_of_mem (by simp)]
      · rw [update_of_ne (by simp [hj]), without_apply (.inl hj), without_apply (.inl hj)]
        simp only [hj, if_false, table]
        rw [update_of_ne hj]
    rw [htab]
    exact hown3

end

end Xv6.Fs
