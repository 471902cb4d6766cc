import Xv6.Log.Operation

namespace Xv6.Logging

open BlockData Cache Function List Prod Rely Run Sys

/-!
# Runs of the machine

What holds of the machine at every point of a run, with operations, commits, recoveries and, where
they are allowed, crashes.

* `Phase` — where the machine is: in recovery, between commits, in a commit, or in one that will
  find no buffer;
* `boot_run`, `commit_run`, `full_run` — the instructions of recovery and commit;
* `step_running`, `running_of_reach` — every step that keeps to the rules goes from one phase to
  the same or the next.
-/

variable {P α : Type} {G : Geo} {d : Key → α} {K : Key → Prop} {live : Prop}
variable {s s' : Sys P α} {p : P} {T : List Instr} {x e : Instr} {boots : Bool} {l : List Nat}

/-! ### What a commit or recovery still has to do -/

/-- Instructions of `commit`, or of `recover_from_log` for `boots`. -/
def Instr.Works (boots : Bool) : Instr → Prop
  | .append _ | .finish | .ready => False
  | .getHead => boots = true
  | .commit => boots = false
  | _ => True

/-- A program with `e` at its end. -/
def Ends (boots : Bool) (e : Instr) (T : List Instr) : Prop :=
  ∃ T', T = T' ++ [e] ∧ ∀ x ∈ T', x.Works boots

theorem Ends.ne_nil (h : Ends boots e T) : T ≠ [] := by
  obtain ⟨T', rfl, -⟩ := h
  simp

theorem Ends.cons_cases (h : Ends boots e (x :: T)) :
    x = e ∧ T = [] ∨ x.Works boots ∧ Ends boots e T := by
  obtain ⟨T', hT', hall⟩ := h
  cases T' with
  | nil => exact .inl (by simpa using hT')
  | cons y T' =>
    obtain ⟨rfl, rfl⟩ := cons.inj hT'
    exact .inr ⟨hall x (mem_cons_self ..), T', rfl, fun z hz => hall z (mem_cons_of_mem _ hz)⟩

theorem Ends.ne_append (h : Ends boots e (x :: T)) (he : ∀ κ, e ≠ .append κ) (κ : Key) :
    x ≠ .append κ := by
  rintro rfl
  rcases h.cons_cases with ⟨rfl, -⟩ | ⟨hx, -⟩
  · exact he κ rfl
  · exact hx

/-- With as many pinned blocks as there are buffers, every buffer is dirty with one of them. -/
theorem dirty_of_full {c : Cache P α} (hn : l.length = NBUF) (hnd : l.Nodup)
    (hpin : ∀ b ∈ l, c.Pinned (G.home b)) (i : BufId) :
    ∃ b ∈ l, (c.buf i).key = G.home b ∧ (c.buf i).dirty = true := by
  choose f hf using fun j : Fin l.length => hpin (l.get j) (get_mem l j)
  have hinj : Injective f := by
    intro j k hjk
    have hkey : G.home (l.get j) = G.home (l.get k) := by rw [← (hf j).1, ← (hf k).1, hjk]
    exact hnd.injective_get (congrArg snd hkey)
  have hbij : Bijective f :=
    (Fintype.bijective_iff_injective_and_card f).mpr ⟨hinj, by simp [hn]⟩
  obtain ⟨j, rfl⟩ := hbij.2 i
  exact ⟨l.get j, get_mem l j, hf j⟩

section

variable [DecidableEq P]

/-- A commit goes on, and is the same process'. -/
theorem commit_ctl (hx : x.Works false) (hctl : CtlExec s s' p x) (hb : s.booting = none)
    (hc : Committer s.ctl (some p)) :
    CtlMove s.ctl s'.ctl p ∧ Committer s'.ctl (some p) ∧ s'.booting = none := by
  cases x with
  | clear =>
    obtain ⟨hstep, hb'⟩ := hctl
    rw [if_neg (by rw [hb]; exact nofun)] at hstep
    refine ⟨.inr ⟨.clear p, rfl, hstep⟩, ?_, hb'.trans hb⟩
    show (s'.ctl.proc p).pc.commits = 1
    rw [clear_committed hstep]
    rfl
  | append | finish | ready => exact hx.elim
  | getHead => cases hx
  | get | lock | fill | copy | write | unlock | put | setHead | commit | writeLog | install =>
    exact ⟨.inl hctl.1, hctl.1 ▸ hc, hctl.2.trans hb⟩

/-- Recovery goes on. -/
theorem boot_ctl (hx : x.Works true) (hctl : CtlExec s s' p x) (hb : s.booting = some p)
    (hl : ∃ l, s.ctl = { initlog G.size with log.block := l }) :
    (∃ l, s'.ctl = { initlog G.size with log.block := l }) ∧ s'.booting = some p := by
  obtain ⟨l, hl⟩ := hl
  cases x with
  | clear =>
    obtain ⟨hstep, hb'⟩ := hctl
    rw [if_pos hb, hl] at hstep
    exact ⟨⟨[], hstep⟩, hb'.trans hb⟩
  | getHead =>
    obtain ⟨⟨l', hl'⟩, hb'⟩ := hctl
    rw [hl] at hl'
    exact ⟨⟨l', hl'⟩, hb'.trans hb⟩
  | append | finish | ready => exact hx.elim
  | commit => cases hx
  | get | lock | fill | copy | write | unlock | put | setHead | writeLog | install =>
    exact ⟨⟨l, hctl.1.trans hl⟩, hctl.2.trans hb⟩

/-- Then there is no buffer for another block. -/
theorem bget_full {c c' : Cache P α} {κ : Key} (hn : l.length = NBUF) (hnd : l.Nodup)
    (hpin : ∀ b ∈ l, c.Pinned (G.home b)) (hκ : ∀ b ∈ l, κ ≠ G.home b) :
    c.bget p κ ≠ .ok c' := by
  have hall := dirty_of_full hn hnd hpin
  unfold bget
  split
  · rename_i i hi
    obtain ⟨b, hb, hkey, -⟩ := hall i
    have hk : (c.buf i).key = κ := by simpa using find?_some hi
    exact absurd (hk.symm.trans hkey) (hκ b hb)
  · split
    · rename_i i hi
      obtain ⟨b, -, -, hd⟩ := hall i
      have hclean := find?_some hi
      simp [hd] at hclean
    · exact nofun

end

/-! ### Where the machine is -/

variable [BlockData α]

/-- Where the machine is. -/
inductive Phase [Fintype P] (G : Geo) (d : Key → α) (K : Key → Prop) (live : Prop) (s : Sys P α) :
    Prop
  | boot (p : P) : s.booting = some p → (∀ q, q ≠ p → s.todo q = []) →
      Ends true .ready (s.todo p) → (∃ l, s.ctl = { initlog G.size with log.block := l }) →
      Safe (Abs.exec G) Eq (Steady G d K live) (Finished G K d) s.abs (s.todo p) →
      Phase G d K live s
  | idle : Serving G s none → Between G d K s.abs s.cache.Pinned s.Changing → Phase G d K live s
  | commit (p : P) : Serving G s (some p) → Ends false .finish (s.todo p) →
      Safe (Abs.exec G) (Others G K) (Steady G d K live) (Finished G K d) s.abs (s.todo p) →
      Phase G d K live s
  /-- The header is full: all buffers are dirty, and there is none for the first block of the
      log. -/
  | full (p : P) (x : Instr) (T : List Instr) : Serving G s (some p) → s.todo p = x :: T →
      x = .commit ∨ x = .writeLog 0 ∨ x = .get (G.slot 0) → s.abs.block.length = NBUF →
      (∀ b ∈ s.abs.block, s.cache.Pinned (G.home b)) →
      Between G d K s.abs s.cache.Pinned s.Changing → Phase G d K live s

/-- What holds of the machine. -/
structure Running [Fintype P] (G : Geo) (d : Key → α) (K : Key → Prop) (live : Prop)
    (s : Sys P α) : Prop where
  cached : Cached s.cache
  tracks : ∀ p, s.Tracks G p
  phase : Phase G d K live s

/-- What holds all the time. -/
theorem Phase.steady [Fintype P] (h : Phase G d K live s) : Steady G d K live s.abs := by
  cases h with
  | boot p _ _ hends _ hsafe =>
    generalize htodo : s.todo p = T at hends hsafe
    cases hsafe with
    | nil => exact absurd rfl hends.ne_nil
    | cons hI => exact hI _ rfl
  | idle _ hb => exact hb.steady
  | commit p _ hends hsafe =>
    generalize htodo : s.todo p = T at hends hsafe
    cases hsafe with
    | nil => exact absurd rfl hends.ne_nil
    | cons hI => exact hI _ (.refl _)
  | full p x T _ _ _ _ _ hb => exact hb.steady

/-! ### Steps of commit and recovery -/

section

variable {m : Abs α}

/-- What an instruction leaves to be done before the rest. -/
theorem exec_works (hx : x.Works boots) :
    ∃ ys, (∀ y ∈ ys, y.Works boots) ∧ (m.exec G T x).2 = ys ++ T := by
  cases x with
  | commit =>
    cases hx
    rw [Abs.exec]
    split
    · exact ⟨[.clear], by simp [Instr.Works], rfl⟩
    · exact ⟨commitCode G, by simp [commitCode, writeHeadCode, bread, brelse, Instr.Works], rfl⟩
  | writeLog tail =>
    rw [Abs.exec]
    split
    · rename_i b _
      exact ⟨writeLogBody G tail b ++ [.writeLog (tail + 1)],
        by simp [writeLogBody, bread, brelse, Instr.Works], by simp⟩
    · exact ⟨[], (by rintro _ ⟨⟩), rfl⟩
  | install tail =>
    rw [Abs.exec]
    split
    · rename_i b _
      exact ⟨installBody G tail b ++ [.install (tail + 1)],
        by simp [installBody, bread, brelse, Instr.Works], by simp⟩
    · exact ⟨[], (by rintro _ ⟨⟩), rfl⟩
  | append | finish | ready => exact hx.elim
  | get | lock | fill | copy | write | unlock | put | getHead | setHead | clear =>
    exact ⟨[], (by rintro _ ⟨⟩), rfl⟩

theorem Ends.exec (h : Ends boots e T) (hx : x.Works boots) : Ends boots e (m.exec G T x).2 := by
  obtain ⟨T', rfl, hall⟩ := h
  obtain ⟨ys, hys, heq⟩ := exec_works (G := G) (m := m) (T := T' ++ [e]) hx
  rw [heq]
  refine ⟨ys ++ T', by rw [append_assoc], fun y hy => ?_⟩
  rcases mem_append.mp hy with hy | hy
  · exact hys y hy
  · exact hall y hy

variable [Fintype P]

/-- What a safe program does next is safe. -/
theorem Executed.safe {R : Abs α → Abs α → Prop} {Q I : Abs α → Prop} (he : Executed G s s' p x T)
    (hR : R s.abs s.abs) (h : Safe (Abs.exec G) R I Q s.abs (x :: T)) :
    Safe (Abs.exec G) R I Q s'.abs (s'.todo p) := by
  cases h with
  | cons _ hs =>
    obtain ⟨h1, h2⟩ := mk.inj (he.abs.trans (mk.eta ..).symm)
    rw [h1, h2]
    exact hs _ hR

variable [DecidableEq P]

/-- The next instruction of `recover_from_log`. -/
theorem boot_run (hb : s.booting = some p) (hothers : ∀ q, q ≠ p → s.todo q = [])
    (hends : Ends true .ready (x :: T)) (hl : ∃ l, s.ctl = { initlog G.size with log.block := l })
    (hsafe : Safe (Abs.exec G) Eq (Steady G d K live) (Finished G K d) s.abs (x :: T))
    (he : Executed G s s' p x T) (hctl : CtlExec s s' p x) : Phase G d K live s' := by
  have hsafe' := he.safe rfl hsafe
  have hothers' (q : P) (hq : q ≠ p) : s'.todo q = [] := (he.others q hq).trans (hothers q hq)
  have htodo : s'.todo p = (s.abs.exec G T x).2 := congrArg snd he.abs
  rcases hends.cons_cases with ⟨rfl, rfl⟩ | ⟨hx, hT⟩
  · -- the end of the recovery: operations may begin
    rw [htodo] at hsafe'
    obtain ⟨hsame, hb'⟩ := hctl
    obtain ⟨l, hl⟩ := hl
    cases hsafe' with
    | nil hQ =>
      have hfin := hQ _ rfl
      have hlog : s'.ctl = initlog G.size := by
        have hblock : s'.ctl.log.block = [] := hfin.block
        rw [hsame, hl] at hblock ⊢
        rw [show l = [] from hblock]
        rfl
      refine .idle ⟨hb', hlog ▸ initlog_inv G.size, fun q _ => .inl ?_, hlog ▸ rfl⟩ hfin.between
      rcases eq_or_ne q p with rfl | hq
      · rw [htodo]
        exact nofun
      · rw [hothers' q hq]
        exact nofun
  · obtain ⟨hl', hb'⟩ := boot_ctl hx hctl hb hl
    exact .boot p hb' hothers' (htodo ▸ hT.exec hx) hl' hsafe'

/-- The next instruction of `commit`. -/
theorem commit_run (h : Serving G s (some p)) (hends : Ends false .finish (x :: T))
    (hsafe : Safe (Abs.exec G) (Others G K) (Steady G d K live) (Finished G K d) s.abs (x :: T))
    (he : Executed G s s' p x T) (hctl : CtlExec s s' p x) : Phase G d K live s' := by
  have hsafe' := he.safe (.refl _) hsafe
  have htodo : s'.todo p = (s.abs.exec G T x).2 := congrArg snd he.abs
  rcases hends.cons_cases with ⟨rfl, rfl⟩ | ⟨hx, hT⟩
  · rw [htodo] at hsafe'
    cases hsafe' with
    | nil hQ =>
      have hmove : CtlMove s.ctl s'.ctl p := .inr ⟨.finish p, rfl, hctl.1⟩
      refine .idle (h.move hmove (hctl.2.trans h.booting) he.others ?_
        (fun _ => .inl ?_) (finish_committing hctl.1)) (hQ _ (.refl _)).between
      · rintro q hq ⟨⟩
        exact absurd rfl hq
      · rw [htodo]
        exact nofun
  · obtain ⟨hmove, hcom, hb'⟩ := commit_ctl hx hctl h.booting h.committer
    have hserving : Serving G s' (some p) :=
      h.move hmove hb' he.others (fun _ _ h => h) (fun hne => absurd rfl hne) hcom
    exact .commit p hserving (htodo ▸ hT.exec hx) hsafe'

/-- The next instruction of a `commit` that finds no buffer. -/
theorem full_run (h : Serving G s (some p))
    (hx : x = .commit ∨ x = .writeLog 0 ∨ x = .get (G.slot 0)) (hn : s.abs.block.length = NBUF)
    (hpinned : ∀ b ∈ s.abs.block, s.cache.Pinned (G.home b))
    (hbt : Between G d K s.abs s.cache.Pinned s.Changing) (hexec : s.exec G p T x = .ok s')
    (he : Executed G s s' p x T) (hctl : CtlExec s s' p x) : Phase G d K live s' := by
  obtain ⟨b, l, hl⟩ : ∃ b l, s.abs.block = b :: l := by
    cases hb : s.abs.block with
    | nil =>
      rw [hb] at hn
      cases hn
    | cons b l => exact ⟨b, l, rfl⟩
  have hget : x ≠ .get (G.slot 0) := by
    rintro rfl
    rw [Sys.exec] at hexec
    split at hexec
    · cases hexec
    · obtain ⟨c', hc', -⟩ := Outcome.bind_eq_ok.mp hexec
      refine bget_full hn hbt.nodup hpinned (fun b hb he => ?_) hc'
      have hhome := hbt.home b hb
      rw [← he] at hhome
      unfold Geo.Home Geo.slot Geo.size nlog LOGSIZE MAXOPBLOCKS at hhome
      exact hhome ⟨rfl, by omega, by omega⟩
  have hworks : x.Works false := by
    rcases hx with rfl | rfl | rfl
    · rfl
    · trivial
    · trivial
  obtain ⟨hmove, hcom, hb'⟩ := commit_ctl hworks hctl h.booting h.committer
  have hserving : Serving G s' (some p) :=
    h.move hmove hb' he.others (fun _ _ h => h) (fun hne => absurd rfl hne) hcom
  -- neither of the two does anything but go on
  obtain ⟨habs, y, T', htodo, hy⟩ : s'.abs = s.abs ∧ ∃ y T', s'.todo p = y :: T'
      ∧ (y = .commit ∨ y = .writeLog 0 ∨ y = .get (G.slot 0)) := by
    obtain ⟨habs, htodo⟩ := Prod.mk.inj (he.abs.trans (Prod.mk.eta ..).symm)
    rcases hx with rfl | rfl | rfl
    · rw [Abs.exec, hl, if_neg (cons_ne_nil b l)] at htodo
      exact ⟨habs, .writeLog 0, _, htodo, .inr (.inl rfl)⟩
    · rw [Abs.exec, hl] at habs htodo
      exact ⟨habs, .get (G.slot 0), _, htodo, .inr (.inr rfl)⟩
    · exact absurd rfl hget
  have hpin (κ : Key) (hp : s.cache.Pinned κ) : s'.cache.Pinned κ := by
    refine he.pinned κ ?_ hp
    rintro rfl
    rcases hx with hx | hx | hx <;> cases hx
  have hdoes : Does G K (some p) s'.cache.Pinned s'.Changing s.abs s'.abs := by
    rw [habs]
    exact .same
  have hpinned' : ∀ b ∈ s'.abs.block, s'.cache.Pinned (G.home b) := by
    rw [habs]
    exact fun b hb => hpin _ (hpinned b hb)
  refine .full p y T' hserving htodo hy (by rw [habs]; exact hn) hpinned' (hdoes.between hbt
    (fun κ _ => hpin κ) fun κ _ _ hcg => absurd hcg (h.not_changing κ))

end

/-! ### Every step -/

section

variable [Fintype P] {o : Option P}

theorem Stepped.between (h : Stepped G K o s s')
    (hb : Between G d K s.abs s.cache.Pinned s.Changing) :
    Between G d K s'.abs s'.cache.Pinned s'.Changing :=
  h.does.between hb (fun κ hK => h.pinned κ (.inl hK)) h.changing

/-- A commit that finds no buffer, and a step of another process. -/
theorem Stepped.full {x : Instr} {T : List Instr} (h : Stepped G K (some p) s s')
    (htodo : s.todo p = x :: T) (hx : x = .commit ∨ x = .writeLog 0 ∨ x = .get (G.slot 0))
    (hn : s.abs.block.length = NBUF) (hpin : ∀ b ∈ s.abs.block, s.cache.Pinned (G.home b))
    (hb : Between G d K s.abs s.cache.Pinned s.Changing) : Phase G d K live s' := by
  have hblock := (h.does.others nofun).block
  refine .full p x T h.serving ((h.todo p rfl).trans htodo) hx (by rw [hblock]; exact hn) ?_
    (h.between hb)
  rw [hblock]
  exact fun b hbl => h.pinned _ (.inr ⟨nofun, Header.home_inHeader hbl⟩) (hpin b hbl)

/-- The last operation has ended: the commit is safe, or finds no buffer. -/
theorem Committing.phase (h : Committing G K s s' p)
    (hb : Between G d K s.abs s.cache.Pinned s.Changing) : Phase G d K live s' := by
  have hchanging := h.serving.not_changing
  have hb' : Between G d K s'.abs s'.cache.Pinned s'.Changing := by
    rw [h.abs]
    exact { hb with
      pinned := fun b hbl hK => h.pinned _ (hb.pinned b hbl hK)
      rest := fun κ hκ hK hin => .inl ((hb.rest κ hκ hK hin).resolve_right (h.saved κ hK)) }
  rcases Nat.lt_or_ge s'.abs.block.length NBUF with hlt | hge
  · have hheader : Header G s'.abs.block := ⟨hb'.home, hb'.bound, hlt⟩
    refine .commit p h.serving ?_ ?_
    · rw [h.todo]
      exact ⟨[.commit], rfl, by simp [Instr.Works]⟩
    · rw [h.todo]
      exact end_safe (fun _ _ h => h) hheader (hb'.logged hchanging)
  · have hn : s'.abs.block.length = NBUF := Nat.le_antisymm hb'.length hge
    refine .full p .commit [.finish] h.serving h.todo (.inl rfl) hn (fun b hbl => h.pinned _ ?_) hb'
    rw [h.abs] at hn hbl
    by_cases hK : K (G.home b)
    · exact hb.pinned b hbl hK
    · exact h.full hn b hbl hK

variable [DecidableEq P]

/-- The start of the machine, with a disk from which one gets `snap`. -/
theorem boot_running {disk snap : Key → α} {txs : List (List (Nat × α))} (junk : α)
    (hr : ∀ κ, G.Home κ → K κ → applyTxs G d txs κ = snap κ)
    (hheader : Header G (readHead (disk G.head)))
    (hslots : ∀ j b, (readHead (disk G.head))[j]? = some b → disk (G.slot j) = snap (G.home b))
    (hrest : ∀ κ, G.Home κ → ¬ G.InHeader (readHead (disk G.head)) κ → disk κ = snap κ)
    (hlive : live → readHead (disk G.head) = []) :
    Running G d K live (Sys.boot G junk p disk snap txs) where
  cached := binit_cached disk junk
  tracks := fun q => by
    by_cases hq : q = p
    · refine ⟨fun _ => .none, fun _ => rfl, ?_⟩
      show Fits G _ (if q = p then recoverCode G else [])
      rw [if_pos hq]
      exact fits_recover
    · refine ⟨fun _ => .none, fun _ => rfl, ?_⟩
      show Fits G _ (if q = p then recoverCode G else [])
      rw [if_neg hq]
      exact fun _ => .inl rfl
  phase := by
    have htodo : (boot G junk p disk snap txs).todo p = recoverCode G := if_pos rfl
    have hview (κ : Key) : (boot G junk p disk snap txs).abs.view κ = disk κ := by
      show (binit disk junk).view κ = disk κ
      rw [binit_view]
    refine .boot p rfl (fun q hq => if_neg hq) ?_ ⟨[], rfl⟩ ?_
    · rw [htodo]
      exact ⟨readHeadCode G ++ [.install 0, .clear] ++ writeHeadCode G, rfl, by
        simp [readHeadCode, writeHeadCode, bread, brelse, Instr.Works]⟩
    · rw [htodo]
      refine recover_safe (V := fun b => snap (G.home b)) hheader (fun _ h => h) ?_ (by rw [hview])
      refine ⟨rfl, hr, rfl, fun j b hj => ?_, fun b _ => ⟨rfl, rfl⟩, fun j b hj h => ?_,
        (by rintro _ _ _ ⟨⟩),
        fun κ hκ hin => (hview κ).trans (hrest κ hκ hin), fun κ hκ _ hin => ⟨hrest κ hκ hin, rfl⟩⟩
      · exact ⟨(hview _).trans (hslots j b hj), hslots j b hj⟩
      · simp_all

/-- Every step that keeps to the rules. -/
theorem step_running {a : Sys.Act P α} (h : Running G d K live s) (hrule : s.Rules G K live a)
    (hstep : s.step G a = .ok s') : Running G d K live s' := by
  obtain ⟨hc, htr, hphase⟩ := h
  cases a with
  | crash p junk =>
    cases hstep
    obtain ⟨-, hr, hrec⟩ := hphase.steady
    exact boot_running junk hr hrec.header hrec.slots (fun κ hκ => hrec.rest κ hκ (hrule.2 κ))
      (fun hl => absurd hl hrule.1)
  | call p c =>
    rw [Sys.step] at hstep
    split at hstep
    · rename_i hready
      obtain ⟨hboot, htodo⟩ := hready
      cases hphase with
      | boot q hb =>
        rw [hboot] at hb
        cases hb
      | idle hs hb =>
        rcases hs.call hc htr nofun htodo hrule hstep with hst | ⟨-, hcom⟩
        · exact ⟨hst.cached, hst.tracks, .idle hst.serving (hst.between hb)⟩
        · exact ⟨hcom.cached, hcom.tracks, hcom.phase hb⟩
      | commit q hs hends hsafe =>
        have hqp : some q ≠ some p := by
          rintro ⟨⟩
          exact hends.ne_nil htodo
        rcases hs.call hc htr hqp htodo hrule hstep with hst | ⟨hnone, -⟩
        · refine ⟨hst.cached, hst.tracks, .commit q hst.serving ?_ ?_⟩ <;> rw [hst.todo q rfl]
          · exact hends
          · exact hsafe.rely (hst.does.others nofun)
        · cases hnone
      | full q x T hs htodo' hx hn hpin hb =>
        have hqp : some q ≠ some p := by
          rintro ⟨⟩
          rw [htodo] at htodo'
          cases htodo'
        rcases hs.call hc htr hqp htodo hrule hstep with hst | ⟨hnone, -⟩
        · exact ⟨hst.cached, hst.tracks, hst.full htodo' hx hn hpin hb⟩
        · cases hnone
    · cases hstep
  | run p =>
    rw [Sys.step] at hstep
    split at hstep
    · cases hstep
    · rename_i x T htodo
      -- the next instruction of the process that commits or recovers
      have hown (hx : ∀ κ, x ≠ .append κ) : Executed G s s' p x T := by
        obtain ⟨σ, hσ, hF⟩ := htr p
        rw [htodo] at hF
        exact exec_ok hc hσ hF (fun κ hxκ => absurd hxκ (hx κ)) hstep
      have hctl := exec_ctl hstep
      cases hphase with
      | boot q hb hothers hends hl hsafe =>
        obtain rfl : p = q := by
          by_contra hpq
          rw [hothers p hpq] at htodo
          cases htodo
        rw [htodo] at hends hsafe
        have he := hown (hends.ne_append nofun)
        exact ⟨he.cached, he.tracks_all htr, boot_run hb hothers hends hl hsafe he hctl⟩
      | idle hs hb =>
        have hst := hs.run (K := K) hc htr nofun htodo hstep
        exact ⟨hst.cached, hst.tracks, .idle hst.serving (hst.between hb)⟩
      | commit q hs hends hsafe =>
        by_cases hqp : q = p
        · subst hqp
          rw [htodo] at hends hsafe
          have he := hown (hends.ne_append nofun)
          exact ⟨he.cached, he.tracks_all htr, commit_run hs hends hsafe he hctl⟩
        · have hst := hs.run (K := K) hc htr (fun he => hqp (Option.some.inj he)) htodo hstep
          refine ⟨hst.cached, hst.tracks, .commit q hst.serving ?_ ?_⟩ <;> rw [hst.todo q rfl]
          · exact hends
          · exact hsafe.rely (hst.does.others nofun)
      | full q y T' hs htodo' hy hn hpin hb =>
        by_cases hqp : q = p
        · subst hqp
          obtain ⟨rfl, rfl⟩ := List.cons.inj (htodo.symm.trans htodo')
          have he := hown (by rintro κ rfl; rcases hy with hy | hy | hy <;> cases hy)
          exact ⟨he.cached, he.tracks_all htr, full_run hs hy hn hpin hb hstep he hctl⟩
        · have hst := hs.run (K := K) hc htr (fun he => hqp (Option.some.inj he)) htodo hstep
          exact ⟨hst.cached, hst.tracks, hst.full htodo' hy hn hpin hb⟩

/-- What holds in every state that a run reaches. -/
theorem running_of_reach {s₀ : Sys P α} (h₀ : Running G d K live s₀)
    (hr : Reach (Sys.step G) (Sys.Rules G K live) s₀ s) : Running G d K live s :=
  hr.invariant h₀ fun _ _ _ h hrule hstep => step_running h hrule hstep

end

end Xv6.Logging
