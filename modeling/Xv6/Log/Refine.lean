import Xv6.Log.CacheSpec

namespace Xv6.Logging

open BlockData Cache Function List Sys Outcome

/-!
# The machine without its cache

Whoever follows the rules of `bio.c` need not know of the cache: what an instruction does to the
contents of the blocks and to the disk depends on these alone.

* `Abs`, `Abs.exec` — contents, disk and header, and the instructions over them;
* `Fits`, `Sys.Tracks` — what a process has to do fits with what it holds;
* `exec_ok` — an instruction does what it does without the cache;
* `Called`, `call_ok` — the same for the calls of an operation.
-/

variable {P α : Type}
variable {b : Nat}

/-! ### Contents, disk and header -/

/-- What the log and the cache amount to. -/
structure Abs (α : Type) where
  view : Key → α
  disk : Key → α
  last : Key → α
  snap : Key → α
  block : List Nat
  txs : List (List (Nat × α))

/-- What the state amounts to. -/
def Sys.abs (s : Sys P α) : Abs α where
  view := s.cache.view
  disk := s.cache.disk
  last := s.last
  snap := s.snap
  block := s.ctl.log.block
  txs := s.txs

/-- The header after `log_write` of block `b`. -/
def absorb (l : List Nat) (b : Nat) : List Nat := if b ∈ l then l else l ++ [b]

section

variable [BlockData α]

/-- A header that is not empty has reached the disk. -/
def Abs.record (G : Geo) (m : Abs α) (κ : Key) : Abs α :=
  if κ = G.head ∧ readHead (m.disk κ) ≠ [] then
    { m with snap := m.last, txs := m.txs ++ [m.block.map (fun b => (b, m.last (G.home b)))] }
  else m

/-- An instruction, and what is to be done after it. -/
def Abs.exec (G : Geo) (m : Abs α) (T : List Instr) : Instr → Abs α × List Instr
  | .get _ | .lock _ | .fill _ | .unlock _ | .put _ | .finish | .ready => (m, T)
  | .copy dst src => ({ m with view := update m.view dst (m.view src) }, T)
  | .write κ => (Abs.record G { m with disk := update m.disk κ (m.view κ) } κ, T)
  | .append κ => ({ m with block := absorb m.block κ.2 }, T)
  | .getHead => ({ m with block := readHead (m.view G.head) }, T)
  | .setHead =>
    ({ m with view := update m.view G.head (writeHead m.block (m.view G.head)) }, T)
  | .commit => (m, if m.block = [] then .clear :: T else commitCode G ++ T)
  | .writeLog tail =>
    match m.block[tail]? with
    | some b => (m, writeLogBody G tail b ++ .writeLog (tail + 1) :: T)
    | none => (m, T)
  | .install tail =>
    match m.block[tail]? with
    | some b => (m, installBody G tail b ++ .install (tail + 1) :: T)
    | none => (m, T)
  | .clear => ({ m with block := [] }, T)

end

/-! ### What is to be done fits with what is held -/

/-- Instructions that fit with what a process holds, go on to fit, and in the end leave it no
    block of the log and none half read.  Who asks for a block it holds does not get on. -/
def Fits (G : Geo) : (Key → Hold) → List Instr → Prop
  | σ, [] => ∀ κ, σ κ = .none ∨ G.Home κ ∧ (σ κ = .valid ∨ σ κ = .modified)
  | σ, .get κ :: T => 1 ≤ κ.1 ∧ (σ κ = .none → Fits G (update σ κ .ref) T)
  | σ, .lock κ :: T => σ κ = .ref ∧ Fits G (update σ κ .locked) T
  | σ, .fill κ :: T => σ κ = .locked ∧ Fits G (update σ κ .valid) T
  | σ, .copy dst src :: T => dst ≠ src ∧ σ dst = .valid ∧ σ src = .valid
      ∧ Fits G (update σ dst .modified) T
  | σ, .write κ :: T => σ κ = .modified ∧ Fits G (update σ κ .valid) T
  | σ, .unlock κ :: T => σ κ = .valid ∧ Fits G (update σ κ .ref) T
  | σ, .put κ :: T => σ κ = .ref ∧ Fits G (update σ κ .none) T
  | σ, .append κ :: T => σ κ = .modified ∧ Fits G (update σ κ .valid) T
  | σ, .getHead :: T => σ G.head = .valid ∧ Fits G σ T
  | σ, .setHead :: T => σ G.head = .valid ∧ Fits G (update σ G.head .modified) T
  | σ, .commit :: T | σ, .writeLog _ :: T | σ, .install _ :: T | σ, .clear :: T
  | σ, .finish :: T | σ, .ready :: T => Fits G σ T

/-- What process `p` has to do fits with what it holds. -/
def Sys.Tracks (G : Geo) (s : Sys P α) (p : P) : Prop :=
  ∃ σ, (∀ κ, s.cache.Holds p κ (σ κ)) ∧ Fits G σ (s.todo p)

section

variable {G : Geo} {σ : Key → Hold} {κ : Key} {T : List Instr}

theorem fits_bread (hpos : 1 ≤ κ.1) (h : σ κ = .none → Fits G (update σ κ .valid) T) :
    Fits G σ (bread κ ++ T) := by
  refine ⟨hpos, fun hκ => ⟨update_self .., ?_⟩⟩
  rw [update_idem]
  refine ⟨update_self .., ?_⟩
  rw [update_idem]
  exact h hκ

theorem fits_brelse (hκ : σ κ = .valid) (h : Fits G (update σ κ .none) T) :
    Fits G σ (brelse κ ++ T) := by
  refine ⟨hκ, update_self .., ?_⟩
  rw [update_idem]
  exact h

/-- A block that is let go of again is as before. -/
theorem update_none (hκ : σ κ = .none) (h : Hold) : update (update σ κ h) κ .none = σ := by
  rw [update_idem, ← hκ, update_eq_self]

/-- A block is changed by copying another one to it, and written. -/
theorem fits_copy {dst src : Key} (hne : dst ≠ src) (hdst : σ dst = .valid) (hsrc : σ src = .valid)
    (h : Fits G σ T) : Fits G σ (.copy dst src :: .write dst :: T) := by
  refine ⟨hne, hdst, hsrc, update_self .., ?_⟩
  rw [update_idem, ← hdst, update_eq_self]
  exact h

/-- Two blocks that were held are let go of. -/
theorem eq_of_two_none {τ : Key → Hold} {κ' : Key} (h1 : σ κ = .none) (h2 : σ κ' = .none)
    (hτ1 : τ κ = .none) (hτ2 : τ κ' = .none) (hτ : ∀ x, x ≠ κ → x ≠ κ' → τ x = σ x) : τ = σ := by
  ext x
  by_cases hx : x = κ
  · rw [hx, hτ1, h1]
  · by_cases hx' : x = κ'
    · rw [hx', hτ2, h2]
    · exact hτ x hx hx'

section

variable (h : Fits G σ T)
include h

/-- One block to the log. -/
theorem fits_writeLogBody {tail : Nat} : Fits G σ (writeLogBody G tail b ++ T) := by
  simp only [writeLogBody, append_assoc]
  refine fits_bread G.dev_pos fun h1 => fits_bread G.dev_pos fun h2 => ?_
  -- an entry that is its own block would have been stuck
  have hne : G.home b ≠ G.slot tail := fun he => by
    rw [he, update_self] at h2
    cases h2
  rw [update_of_ne hne] at h2
  refine fits_copy hne.symm ?_ (update_self ..) (fits_brelse (update_self ..) (fits_brelse ?_ ?_))
  · rw [update_of_ne hne.symm, update_self]
  · rw [update_of_ne hne.symm, update_of_ne hne.symm, update_self]
  · rw [eq_of_two_none h1 h2 (update_self ..)]
    · exact h
    · rw [update_of_ne hne, update_self]
    · simp_all

/-- One block home. -/
theorem fits_installBody {tail : Nat} : Fits G σ (installBody G tail b ++ T) := by
  simp only [installBody, append_assoc]
  refine fits_bread G.dev_pos fun h1 => fits_bread G.dev_pos fun h2 => ?_
  have hne : G.home b ≠ G.slot tail := fun he => by
    rw [he, update_self] at h2
    cases h2
  rw [update_of_ne hne] at h2
  refine fits_copy hne (update_self ..) ?_ (fits_brelse ?_ (fits_brelse ?_ ?_))
  · rw [update_of_ne hne.symm, update_self]
  · rw [update_of_ne hne.symm, update_self]
  · rw [update_of_ne hne, update_self]
  · rw [eq_of_two_none h2 h1 (update_self ..)]
    · exact h
    · rw [update_of_ne hne.symm, update_self]
    · simp_all

theorem fits_writeHead : Fits G σ (writeHeadCode G ++ T) := by
  simp only [writeHeadCode, append_assoc]
  refine fits_bread G.dev_pos fun h1 => ⟨update_self .., update_self .., ?_⟩
  rw [update_idem, update_idem]
  refine fits_brelse (update_self ..) ?_
  rw [update_none h1]
  exact h

theorem fits_readHead : Fits G σ (readHeadCode G ++ T) := by
  simp only [readHeadCode, append_assoc]
  refine fits_bread G.dev_pos fun h1 => ⟨update_self .., ?_⟩
  refine fits_brelse (update_self ..) ?_
  rw [update_none h1]
  exact h

/-- The commit. -/
theorem fits_commit : Fits G σ (commitCode G ++ T) := by
  simp only [commitCode, append_assoc]
  exact fits_writeHead (T := [.install 0, .clear] ++ (writeHeadCode G ++ T)) (fits_writeHead h)

end

/-- The recovery. -/
theorem fits_recover : Fits G (fun _ => .none) (recoverCode G) := by
  simp only [recoverCode, append_assoc]
  have hready : Fits G (fun _ => .none) [.ready] := fun _ => by simp
  exact fits_readHead (show Fits G (fun _ => .none) ([.install 0, .clear] ++ _) from
    fits_writeHead hready)

end

/-! ### An instruction with and without the cache -/

/-- The block that an instruction changes its process' hold of. -/
def Instr.key (G : Geo) : Instr → Option Key
  | .get κ | .lock κ | .fill κ | .copy κ _ | .write κ | .unlock κ | .put κ | .append κ => some κ
  | .setHead => some G.head
  | _ => none

/-- Process `p` has done something with block `k`: the invariant of the cache is kept, what `p`
    has to do fits with what it holds, and nothing changes for the others, nor for other
    blocks. -/
structure Progress [Fintype P] (G : Geo) (s s' : Sys P α) (p : P) (k : Option Key) : Prop where
  cached : Cached s'.cache
  tracks : s'.Tracks G p
  others : ∀ q, q ≠ p → s'.todo q = s.todo q
  kept : ∀ q κ, q ≠ p ∨ k ≠ some κ → Kept s.cache s'.cache q κ

/-- What instruction `x` of process `p` does, before `T`. -/
structure Executed [BlockData α] [Fintype P] (G : Geo) (s s' : Sys P α) (p : P) (x : Instr)
    (T : List Instr) : Prop extends Progress G s s' p (x.key G) where
  abs : (s'.abs, s'.todo p) = s.abs.exec G T x
  pinned : ∀ κ, x ≠ .write κ → s.cache.Pinned κ → s'.cache.Pinned κ
  logged : ∀ κ, x = .append κ → s'.cache.Pinned κ

section

variable {G : Geo} {c c' : Cache P α} {p : P} {κ : Key} {h : Hold} {σ : Key → Hold}
variable {s s' : Sys P α} {x : Instr} {T : List Instr}

/-- A valid buffer may have been modified. -/
theorem Cache.Holds.modified (hh : c.Holds p κ .valid) : c.Holds p κ .modified := by
  obtain ⟨i, hi, hl, hv, -⟩ := hh
  exact ⟨i, hi, hl, hv⟩

/-- Who has no pointer holds nothing. -/
theorem Cache.Holds.eq_none (hh : c.Holds p κ h) (hn : c.ptr p κ = none) : h = .none := by
  cases h with
  | none => rfl
  | ref | locked | valid | modified =>
    obtain ⟨i, hi, -⟩ := hh
    rw [hn] at hi
    cases hi

section

variable [DecidableEq P]

@[simp] theorem setTodo_self : (s.setTodo p T).todo p = T := update_self ..

theorem setTodo_ne {q : P} (hq : q ≠ p) : (s.setTodo p T).todo q = s.todo q :=
  update_of_ne hq ..

/-- Only the log moves. -/
theorem logStep_ok {a : Act P} (h : s.logStep a = .ok s') :
    ∃ ctl, step s.ctl a = .ok ctl ∧ s' = { s with ctl } := by
  obtain ⟨ctl, hctl, h⟩ := bind_eq_ok.mp h
  cases h
  exact ⟨ctl, mapPanic_eq_ok.mp hctl, rfl⟩

/-- The header after `log_write`. -/
theorem append_block {ctl ctl' : State P} (hpc : (ctl.proc p).pc = .logging b)
    (h : step ctl (.append p) = .ok ctl') :
    ctl'.log.block = absorb ctl.log.block b := by
  unfold absorb
  cases step_cases h with
  | absorb hpc' hb =>
    cases hpc.symm.trans hpc'
    rw [if_pos hb]
  | append hpc' hb _ =>
    cases hpc.symm.trans hpc'
    rw [if_neg hb]

end

section

variable [BlockData α]

@[simp] theorem record_cache : (s.record G κ).cache = s.cache := by
  unfold record
  split <;> rfl

@[simp] theorem record_todo : (s.record G κ).todo = s.todo := by
  unfold record
  split <;> rfl

theorem record_abs : (s.record G κ).abs = s.abs.record G κ := by
  unfold record Abs.record
  by_cases hr : κ = G.head ∧ readHead (s.cache.disk κ) ≠ []
  · rw [if_pos hr, if_pos (by exact hr)]
    rfl
  · rw [if_neg hr, if_neg (by exact hr)]

@[simp] theorem record_ctl : (s.record G κ).ctl = s.ctl := by
  unfold record
  split <;> rfl

@[simp] theorem record_booting : (s.record G κ).booting = s.booting := by
  unfold record
  split <;> rfl

end

variable [Fintype P]

/-- What `p` holds afterwards. -/
theorem Acts.holds_update (ha : Acts c c' p κ) (hh : c'.Holds p κ h)
    (hσ : ∀ κ', c.Holds p κ' (σ κ')) (κ' : Key) : c'.Holds p κ' (update σ κ h κ') := by
  by_cases hκ : κ' = κ
  · subst hκ
    rw [update_self]
    exact hh
  · rw [update_of_ne hκ]
    exact (ha.kept p κ' (.inr hκ)).holds (hσ κ')

/-- What leaves the cache alone keeps what is known of it. -/
theorem progress_of_same {k : Option Key} (hc : Cached s.cache) (hcache : s'.cache = s.cache)
    (hσ : ∀ κ, s.cache.Holds p κ (σ κ)) (hF : Fits G σ (s'.todo p))
    (htodo : ∀ q, q ≠ p → s'.todo q = s.todo q) : Progress G s s' p k where
  cached := by rw [hcache]; exact hc
  tracks := ⟨σ, by rw [hcache]; exact hσ, hF⟩
  others := htodo
  kept := fun q κ _ => by
    rw [hcache]
    exact ⟨rfl, fun _ _ => .rfl, fun _ _ _ => ⟨rfl, rfl⟩⟩

variable [BlockData α]

/-- An instruction that does something with one block. -/
theorem Acts.executed (ha : Acts s.cache s'.cache p κ) (hh : s'.cache.Holds p κ h)
    (hσ : ∀ κ', s.cache.Holds p κ' (σ κ')) (hF : Fits G (update σ κ h) (s'.todo p))
    (htodo : ∀ q, q ≠ p → s'.todo q = s.todo q) (habs : (s'.abs, s'.todo p) = s.abs.exec G T x)
    (hkey : x.key G = some κ) (hpin : x ≠ .write κ → s.cache.Pinned κ → s'.cache.Pinned κ)
    (hlog : ∀ κ, x = .append κ → s'.cache.Pinned κ) : Executed G s s' p x T where
  cached := ha.cached
  tracks := ⟨_, ha.holds_update hh hσ, hF⟩
  others := htodo
  kept := fun q κ' hne => ha.kept q κ' (hne.imp_right fun hk he => hk (by rw [hkey, he]))
  logged := hlog
  abs := habs
  pinned := fun κ' hx hp => by
    by_cases hκ : κ' = κ
    · subst hκ
      exact hpin hx hp
    · exact ha.pinned κ' hκ hp

variable [DecidableEq P]

/-- An instruction that only moves a buffer on. -/
theorem Moves.executed {v : Key → α} (hm : Moves s.cache c' p κ h v)
    (hσ : ∀ κ', s.cache.Holds p κ' (σ κ')) (hF : Fits G (update σ κ h) T)
    (habs : ({ s.abs with view := v }, T) = s.abs.exec G T x) (hkey : x.key G = some κ)
    (hlog : ∀ κ, x ≠ .append κ) :
    Executed G s ({ s with cache := c' }.setTodo p T) p x T := by
  refine Acts.executed hm.toActs hm.holds hσ ?_ (fun q hq => setTodo_ne hq) ?_ hkey
    (fun _ => hm.pin) (fun κ' hx => absurd hx (hlog κ'))
  · rw [setTodo_self]
    exact hF
  · rw [setTodo_self, ← habs]
    simp only [Sys.abs, setTodo, hm.view, hm.disk]

/-- An instruction that leaves the cache alone, and `T'` to be done. -/
theorem executed_of_same {T' : List Instr} (hc : Cached s.cache) (hcache : s'.cache = s.cache)
    (htodo : s'.todo = s.todo) (hσ : ∀ κ', s.cache.Holds p κ' (σ κ')) (hF : Fits G σ T')
    (habs : (s'.abs, T') = s.abs.exec G T x) (hlog : ∀ κ, x ≠ .append κ) :
    Executed G s (s'.setTodo p T') p x T where
  toProgress := progress_of_same hc hcache hσ (by rw [setTodo_self]; exact hF)
    fun q hq => by rw [setTodo_ne hq, htodo]
  logged := fun κ hx => absurd hx (hlog κ)
  abs := by rw [setTodo_self]; exact habs
  pinned := fun κ _ hp => hcache ▸ hp

/-- An instruction does what it does without the cache. -/
theorem exec_ok (hc : Cached s.cache) (hσ : ∀ κ, s.cache.Holds p κ (σ κ)) (hF : Fits G σ (x :: T))
    (hlog : ∀ κ, x = .append κ → (s.ctl.proc p).pc = .logging κ.2) (h : s.exec G p T x = .ok s') :
    Executed G s s' p x T := by
  cases x with
  | get κ =>
    rw [exec] at h
    split at h
    · cases h
    · rename_i hnone
      have hnone' : s.cache.ptr p κ = none := by simpa using hnone
      obtain ⟨c', hc', h⟩ := bind_eq_ok.mp h
      cases h
      exact (bget_ok hc hnone' hF.1 hc').executed hσ (hF.2 ((hσ κ).eq_none hnone')) rfl rfl nofun
  | lock κ =>
    obtain ⟨c', hc', h⟩ := bind_eq_ok.mp h
    cases h
    exact (acquiresleep_ok hc (hF.1 ▸ hσ κ) hc').executed hσ hF.2 rfl rfl nofun
  | fill κ =>
    obtain ⟨c', hc', h⟩ := bind_eq_ok.mp h
    cases h
    exact (fill_ok hc (hF.1 ▸ hσ κ) hc').executed hσ hF.2 rfl rfl nofun
  | copy dst src =>
    obtain ⟨-, hdst, hsrc, hF⟩ := hF
    obtain ⟨v, hv, h⟩ := bind_eq_ok.mp h
    obtain ⟨c', hc', h⟩ := bind_eq_ok.mp h
    cases h
    obtain rfl := read_ok hc (Holds.modified (hsrc ▸ hσ src)) hv
    exact (modify_ok hc (Holds.modified (hdst ▸ hσ dst)) hc').1.executed hσ hF rfl rfl nofun
  | write κ =>
    obtain ⟨c', hc', h⟩ := bind_eq_ok.mp h
    cases h
    obtain ⟨hacts, hh, hview, hdisk⟩ := bwrite_ok hc (hF.1 ▸ hσ κ) hc'
    rw [← show ((record G { s with cache := c' } κ).setTodo p T).cache = c' from record_cache]
      at hacts hh
    refine hacts.executed hh hσ ?_ (fun q hq => ?_) ?_ rfl (fun hne => absurd rfl hne) nofun
    · rw [setTodo_self]
      exact hF.2
    · rw [setTodo_ne hq, record_todo]
    · rw [setTodo_self]
      show (Sys.abs (record G { s with cache := c' } κ), T) = _
      rw [record_abs]
      simp only [Sys.abs, hview, hdisk, Abs.exec]
  | unlock κ =>
    obtain ⟨c', hc', h⟩ := bind_eq_ok.mp h
    cases h
    exact (releasesleep_ok hc (hF.1 ▸ hσ κ) hc').executed hσ hF.2 rfl rfl nofun
  | put κ =>
    obtain ⟨c', hc', h⟩ := bind_eq_ok.mp h
    cases h
    exact (bput_ok hc (hF.1 ▸ hσ κ) hc').executed hσ hF.2 rfl rfl nofun
  | append κ =>
    obtain ⟨s1, hs1, h⟩ := bind_eq_ok.mp h
    obtain ⟨c', hc', h⟩ := bind_eq_ok.mp h
    cases h
    obtain ⟨ctl, hctl, rfl⟩ := logStep_ok hs1
    obtain ⟨hm, hpin⟩ := pin_ok hc (hF.1 ▸ hσ κ) hc'
    refine Acts.executed hm.toActs hm.holds hσ ?_ (fun q hq => setTodo_ne hq) ?_ rfl
      (fun _ => hm.pin) ?_
    · rw [setTodo_self]
      exact hF.2
    · rw [setTodo_self]
      simp only [Sys.abs, setTodo, Abs.exec, hm.view, hm.disk, append_block (hlog κ rfl) hctl]
    · rintro κ' ⟨⟩
      exact hpin
  | getHead =>
    obtain ⟨hhead, hF⟩ := hF
    obtain ⟨v, hv, h⟩ := bind_eq_ok.mp h
    cases h
    obtain rfl := read_ok hc (Holds.modified (hhead ▸ hσ G.head)) hv
    exact executed_of_same hc rfl rfl hσ hF rfl nofun
  | setHead =>
    obtain ⟨hhead, hF⟩ := hF
    obtain ⟨c', hc', h⟩ := bind_eq_ok.mp h
    cases h
    exact (modify_ok hc (Holds.modified (hhead ▸ hσ G.head)) hc').1.executed hσ hF rfl rfl nofun
  | commit =>
    rw [exec] at h
    split at h
    all_goals
      rename_i hb
      cases h
    · exact executed_of_same hc rfl rfl hσ hF (by simp [Abs.exec, Sys.abs, hb]) nofun
    · exact executed_of_same hc rfl rfl hσ (fits_commit hF) (by simp [Abs.exec, Sys.abs, hb]) nofun
  | writeLog tail =>
    rw [exec] at h
    split at h
    all_goals
      rename_i hb
      cases h
    · exact executed_of_same hc rfl rfl hσ (fits_writeLogBody hF)
        (by simp [Abs.exec, Sys.abs, hb]) nofun
    · exact executed_of_same hc rfl rfl hσ hF (by simp [Abs.exec, Sys.abs, hb]) nofun
  | install tail =>
    rw [exec] at h
    split at h
    all_goals
      rename_i hb
      cases h
    · exact executed_of_same hc rfl rfl hσ (fits_installBody hF)
        (by simp [Abs.exec, Sys.abs, hb]) nofun
    · exact executed_of_same hc rfl rfl hσ hF (by simp [Abs.exec, Sys.abs, hb]) nofun
  | clear =>
    rw [exec] at h
    split at h
    · cases h
      exact executed_of_same hc rfl rfl hσ hF rfl nofun
    · obtain ⟨s1, hs1, h⟩ := bind_eq_ok.mp h
      cases h
      obtain ⟨ctl, hctl, rfl⟩ := logStep_ok hs1
      exact executed_of_same hc rfl rfl hσ hF (by cases step_cases hctl; rfl) nofun
  | finish =>
    obtain ⟨s1, hs1, h⟩ := bind_eq_ok.mp h
    cases h
    obtain ⟨ctl, hctl, rfl⟩ := logStep_ok hs1
    exact executed_of_same hc rfl rfl hσ hF (by cases step_cases hctl; rfl) nofun
  | ready =>
    cases h
    exact executed_of_same hc rfl rfl hσ hF rfl nofun

/-- What an instruction does to the log's protocol. -/
def CtlExec (s s' : Sys P α) (p : P) : Instr → Prop
  | .append _ => step s.ctl (.append p) = .ok s'.ctl ∧ s'.booting = s.booting
  | .finish => step s.ctl (.finish p) = .ok s'.ctl ∧ s'.booting = s.booting
  | .clear => (if s.booting = some p then s'.ctl = { s.ctl with log.block := [] }
      else step s.ctl (.clear p) = .ok s'.ctl) ∧ s'.booting = s.booting
  | .getHead => (∃ l, s'.ctl = { s.ctl with log.block := l }) ∧ s'.booting = s.booting
  | .ready => s'.ctl = s.ctl ∧ s'.booting = none
  | _ => s'.ctl = s.ctl ∧ s'.booting = s.booting

omit [Fintype P] in
/-- What an instruction does to the log. -/
theorem exec_ctl (h : s.exec G p T x = .ok s') : CtlExec s s' p x := by
  cases x with
  | get κ =>
    rw [exec] at h
    split at h
    · cases h
    · obtain ⟨c', -, h⟩ := bind_eq_ok.mp h
      cases h
      exact ⟨rfl, rfl⟩
  | lock κ | fill κ | unlock κ | put κ | setHead =>
    obtain ⟨c', -, h⟩ := bind_eq_ok.mp h
    cases h
    exact ⟨rfl, rfl⟩
  | copy dst src =>
    obtain ⟨v, -, h⟩ := bind_eq_ok.mp h
    obtain ⟨c', -, h⟩ := bind_eq_ok.mp h
    cases h
    exact ⟨rfl, rfl⟩
  | write κ =>
    obtain ⟨c', -, h⟩ := bind_eq_ok.mp h
    cases h
    exact ⟨record_ctl, record_booting⟩
  | append κ =>
    obtain ⟨s1, hs1, h⟩ := bind_eq_ok.mp h
    obtain ⟨c', -, h⟩ := bind_eq_ok.mp h
    cases h
    obtain ⟨ctl, hctl, rfl⟩ := logStep_ok hs1
    exact ⟨hctl, rfl⟩
  | getHead =>
    obtain ⟨v, -, h⟩ := bind_eq_ok.mp h
    cases h
    exact ⟨⟨_, rfl⟩, rfl⟩
  | commit =>
    rw [exec] at h
    split at h <;> cases h <;> exact ⟨rfl, rfl⟩
  | writeLog tail | install tail =>
    rw [exec] at h
    split at h <;> cases h <;> exact ⟨rfl, rfl⟩
  | clear =>
    rw [exec] at h
    split at h
    · rename_i hb
      cases h
      exact ⟨by rw [if_pos hb]; rfl, rfl⟩
    · rename_i hb
      obtain ⟨s1, hs1, h⟩ := bind_eq_ok.mp h
      cases h
      obtain ⟨ctl, hctl, rfl⟩ := logStep_ok hs1
      exact ⟨by rw [if_neg hb]; exact hctl, rfl⟩
  | finish =>
    obtain ⟨s1, hs1, h⟩ := bind_eq_ok.mp h
    cases h
    obtain ⟨ctl, hctl, rfl⟩ := logStep_ok hs1
    exact ⟨hctl, rfl⟩
  | ready =>
    cases h
    exact ⟨rfl, rfl⟩

end

/-! ### A call with and without the cache -/

namespace Sys

/-- What a process may call if it keeps to the rules of `bio.c`: blocks are of real devices and
    not the log's, and a block is let go of by who holds it, and not with changes that are
    lost. -/
def Lawful (G : Geo) (s : Sys P α) (p : P) : Call α → Prop
  | .bread κ => 1 ≤ κ.1 ∧ G.Home κ
  | .brelse κ => s.cache.Holds p κ .valid
  | _ => True

/-- The block that a call changes its process' hold of. -/
def Call.key : Call α → Option Key
  | .store κ _ | .bwrite κ => some κ
  | _ => none

/-- What a call does to the log's protocol. -/
def CtlCall [DecidableEq P] (s s' : Sys P α) (p : P) : Call α → Prop
  | .logWrite κ => Logging.step s.ctl (.check p κ.2) = .ok s'.ctl
  | .beginOp => Logging.step s.ctl (.begin p) = .ok s'.ctl
  | .endOp => Logging.step s.ctl (.endOp p) = .ok s'.ctl
  | _ => s'.ctl = s.ctl

/-- What a call leaves to be done; the log is now `ctl`. -/
def callCode (ctl : State P) (p : P) : Call α → List Instr
  | .bread κ => bread κ
  | .logWrite κ => [.append κ]
  | .brelse κ => brelse κ
  | .endOp => if (ctl.proc p).pc = .committing then [.commit, .finish] else []
  | .store .. | .bwrite _ | .beginOp => []

end Sys

/-- What a call does. -/
def Abs.call [BlockData α] (G : Geo) (m : Abs α) : Sys.Call α → Abs α
  | .store κ v => { m with view := update m.view κ v, last := update m.last κ v }
  | .bwrite κ => Abs.record G { m with disk := update m.disk κ (m.view κ) } κ
  | _ => m

/-- What a call of process `p` does. -/
structure Called [BlockData α] [Fintype P] [DecidableEq P] (G : Geo) (s s' : Sys P α) (p : P)
    (c : Sys.Call α) : Prop extends Progress G s s' p c.key where
  abs : s'.abs = s.abs.call G c
  todo : s'.todo p = Sys.callCode s'.ctl p c
  ctl : s.CtlCall s' p c
  booting : s'.booting = s.booting
  pinned : ∀ κ, c ≠ .bwrite κ → s.cache.Pinned κ → s'.cache.Pinned κ
  stored : ∀ κ v, c = .store κ v → s'.cache.Unsaved p κ

section

variable {G : Geo} {s s' : Sys P α} {p : P} {c : Sys.Call α} {σ : Key → Hold} {κ : Key} {h : Hold}

/-- A process that has nothing to do holds blocks it has read, and no others. -/
theorem settled (hσ : ∀ κ, s.cache.Holds p κ (σ κ)) (hF : Fits G σ []) {i : BufId}
    (hi : s.cache.ptr p κ = some i) : G.Home κ ∧ s.cache.Holds p κ .modified := by
  have hκ := hσ κ
  rcases hF κ with hn | ⟨hhome, hv | hm⟩
  · rw [hn] at hκ
    rw [show s.cache.ptr p κ = none from hκ] at hi
    cases hi
  · rw [hv] at hκ
    exact ⟨hhome, hκ.modified⟩
  · rw [hm] at hκ
    exact ⟨hhome, hκ⟩

/-- What is known of one block may be told in another way. -/
theorem holds_update (hσ : ∀ κ, s.cache.Holds p κ (σ κ)) (hh : s.cache.Holds p κ h) (κ' : Key) :
    s.cache.Holds p κ' (update σ κ h κ') := by grind

/-- A block that was read, or let go of, leaves a process settled. -/
theorem fits_nil_update (hF : Fits G σ [])
    (hh : h = .none ∨ G.Home κ ∧ (h = .valid ∨ h = .modified)) : Fits G (update σ κ h) [] := by
  intro κ'
  by_cases hκ : κ' = κ
  · subst hκ
    rw [update_self]
    exact hh
  · rw [update_of_ne hκ]
    exact hF κ'

variable [DecidableEq P]

/-- Who writes a block has read it. -/
theorem bwrite_holds {c' : Cache P α} (hσ : ∀ κ, s.cache.Holds p κ (σ κ)) (hF : Fits G σ [])
    (h : s.cache.bwrite p κ = .ok c') :
    G.Home κ ∧ s.cache.Holds p κ .modified := by
  unfold bwrite withBuf at h
  split at h
  · exact settled hσ hF ‹_›
  · cases h

variable [Fintype P] [BlockData α]

/-- A call of a process that has nothing to do does what it does without the cache. -/
theorem call_ok (hc : Cached s.cache) (hσ : ∀ κ, s.cache.Holds p κ (σ κ)) (hF : Fits G σ [])
    (htodo : s.todo p = []) (hlaw : s.Lawful G p c) (h : s.call G p c = .ok s') :
    Called G s s' p c := by
  cases c with
  | bread κ =>
    cases h
    refine ⟨progress_of_same hc (by rfl) hσ ?_ (fun q hq => setTodo_ne hq), rfl, setTodo_self, rfl,
      rfl, fun _ _ hp => hp, nofun⟩
    rw [setTodo_self, ← append_nil (bread κ)]
    exact fits_bread hlaw.1 fun _ => fits_nil_update hF (.inr ⟨hlaw.2, .inl rfl⟩)
  | store κ v =>
    rw [call] at h
    split at h
    · rename_i hhold
      obtain ⟨c', hc', h⟩ := bind_eq_ok.mp h
      cases h
      obtain ⟨i, hi, -⟩ := id hhold
      -- The only call that changes what readers see.
      obtain ⟨hm, hu⟩ := modify_ok hc hhold hc'
      refine ⟨⟨hm.cached, ⟨_, hm.toActs.holds_update hm.holds hσ, ?_⟩, fun _ _ => rfl,
        fun q κ' hne => hm.kept q κ' (hne.imp_right fun hk he => hk (by rw [he]; rfl))⟩, ?_,
        htodo, rfl, rfl, fun κ' _ hp => ?_, ?_⟩
      · rw [show s.todo p = [] from htodo]
        exact fits_nil_update hF (.inr ⟨(settled hσ hF hi).1, .inr rfl⟩)
      · simp only [Sys.abs, Abs.call, hm.view, hm.disk]
      · by_cases hκ : κ' = κ
        · subst hκ
          exact hm.pin hp
        · exact hm.pinned κ' hκ hp
      · rintro κ' v' ⟨⟩
        exact hu
    · cases h
  | logWrite κ =>
    rw [call] at h
    split at h
    · rename_i hhold
      obtain ⟨s1, hs1, h⟩ := bind_eq_ok.mp h
      cases h
      obtain ⟨ctl, hctl, rfl⟩ := logStep_ok hs1
      obtain ⟨i, hi, -⟩ := id hhold
      obtain ⟨hhome, hh⟩ := settled hσ hF hi
      refine ⟨progress_of_same hc (by rfl) (holds_update hσ hh) ?_ (fun q hq => setTodo_ne hq), ?_,
        setTodo_self, hctl, rfl, fun _ _ hp => hp, nofun⟩
      · rw [setTodo_self]
        refine ⟨update_self .., ?_⟩
        rw [update_idem]
        exact fits_nil_update hF (.inr ⟨hhome, .inl rfl⟩)
      · cases step_cases hctl
        rfl
    · cases h
  | bwrite κ =>
    obtain ⟨c', hc', h⟩ := bind_eq_ok.mp h
    cases h
    obtain ⟨hhome, hhold⟩ := bwrite_holds hσ hF hc'
    obtain ⟨hacts, hh, hview, hdisk⟩ := bwrite_ok hc hhold hc'
    rw [← show (record G { s with cache := c' } κ).cache = c' from record_cache] at hacts hh
    refine ⟨⟨hacts.cached, ⟨_, hacts.holds_update hh hσ, ?_⟩, fun q _ => by rw [record_todo],
      fun q κ' hne => hacts.kept q κ' (hne.imp_right fun hk he => hk (by rw [he]; rfl))⟩,
      ?_, ?_, record_ctl, record_booting,
      fun κ' hne hp => hacts.pinned κ' (fun hκ => hne (by rw [hκ])) hp, nofun⟩
    · rw [record_todo, htodo]
      exact fits_nil_update hF (.inr ⟨hhome, .inl rfl⟩)
    · rw [record_abs]
      simp only [Sys.abs, hview, hdisk, Abs.call]
    · rw [record_todo, htodo]
      rfl
  | brelse κ =>
    cases h
    have hh : s.cache.Holds p κ .valid := hlaw
    refine ⟨progress_of_same hc (by rfl) (holds_update hσ hh) ?_ (fun q hq => setTodo_ne hq), rfl,
      setTodo_self, rfl, rfl, fun _ _ hp => hp, nofun⟩
    rw [setTodo_self, ← append_nil (brelse κ)]
    refine fits_brelse (update_self ..) ?_
    rw [update_idem]
    exact fits_nil_update hF (.inl rfl)
  | beginOp =>
    obtain ⟨ctl, hctl, rfl⟩ := logStep_ok h
    refine ⟨progress_of_same hc (by rfl) hσ ?_ (fun _ _ => rfl), ?_, htodo, hctl, rfl,
      fun _ _ hp => hp, nofun⟩
    · rw [show s.todo p = [] from htodo]
      exact hF
    · cases step_cases hctl <;> rfl
  | endOp =>
    obtain ⟨s1, hs1, h⟩ := bind_eq_ok.mp h
    obtain ⟨ctl, hctl, rfl⟩ := logStep_ok hs1
    have habs : Sys.abs { s with ctl } = s.abs := by cases step_cases hctl <;> rfl
    -- The last operation goes on to commit, the others are done.
    split at h
    · rename_i hpc
      cases h
      refine ⟨progress_of_same hc (by rfl) hσ ?_ (fun q hq => setTodo_ne hq), habs, ?_, hctl, rfl,
        fun _ _ hp => hp, nofun⟩
      · rw [setTodo_self]
        exact hF
      · rw [setTodo_self]
        exact (if_pos hpc).symm
    · rename_i hpc
      cases h
      refine ⟨progress_of_same hc (by rfl) hσ ?_ (fun _ _ => rfl), habs, ?_, hctl, rfl,
        fun _ _ hp => hp, nofun⟩
      · rw [show s.todo p = [] from htodo]
        exact hF
      · exact htodo.trans (if_neg hpc).symm

end

end Xv6.Logging
