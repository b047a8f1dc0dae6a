import LmaxBench.Cpp.Market

/-!
# Lazy and eager cancellation

`Book::cancel` leaves the queue entry of the cancelled order behind. `cancelEager` is the
other strategy the conformance document allows: it deletes the entry as well, and drops
the level if that empties it. The limits are those of `Book` in both cases.

Both cancels do the same to the market a book stands for, and so do equal limits. What
can be observed of a book is a function of its market, so stale entries, and levels made
of stale entries only, are never seen.

## Main definitions

* `Book.cancelEager`, `Book.runEager` — the eager variant.
* `Book.market_cancelEager` — it does to the market what a cancel does.
* `Book.Indistinguishable`, `Book.indistinguishable_run` — the two strategies agree.
-/

namespace LmaxBench.Cpp

/-- Delete an id from the level at `p`; an emptied level is dropped. -/
def Levels.remove (m : Levels) (p : ℤ) (id : UInt64) : Levels :=
  match m.find? p with
  | none => m
  | some lvl => Levels.put m p (lvl.erase id)

theorem Levels.find?_remove {m : Levels} {p : ℤ} {id : UInt64} {p' : ℤ} {lvl' : List UInt64}
    (h : (Levels.remove m p id).find? p' = some lvl') :
    ∃ lvl, m.find? p' = some lvl ∧ (lvl' = lvl ∨ lvl' = lvl.erase id) := by
  simp only [Levels.remove] at h
  split at h
  case h_1 => exact ⟨lvl', h, Or.inl rfl⟩
  case h_2 lvl hlvl =>
    rw [find?_put] at h
    split at h
    case isTrue heq =>
      split at h
      · simp at h
      · exact ⟨lvl, heq ▸ hlvl, Or.inr (Option.some.inj h).symm⟩
    case isFalse => exact ⟨lvl', h, Or.inl rfl⟩

theorem Levels.nonempty_remove {m : Levels} (h : m.Nonempty) (p : ℤ) (id : UInt64) :
    (Levels.remove m p id).Nonempty := by
  simp only [Levels.remove]
  split
  · exact h
  · exact h.put _ _

/-- Another id stays where it is. -/
theorem Levels.find?_remove_of_ne {m : Levels} (p : ℤ) {id id' : UInt64} (hne : id' ≠ id) {p' : ℤ}
    {lvl : List UInt64} (hp' : m.find? p' = some lvl) (hid' : id' ∈ lvl) :
    ∃ lvl', (Levels.remove m p id).find? p' = some lvl' ∧ id' ∈ lvl' := by
  simp only [Levels.remove]
  split
  case h_1 => exact ⟨lvl, hp', hid'⟩
  case h_2 q hq =>
    rw [find?_put]
    split
    case isTrue heq =>
      rw [← heq, hp'] at hq
      have hmem : id' ∈ q.erase id := (List.mem_erase_of_ne hne).mpr (Option.some.inj hq ▸ hid')
      exact ⟨_, if_neg (List.ne_nil_of_mem hmem), hmem⟩
    case isFalse => exact ⟨lvl, hp', hid'⟩

namespace Book

/-- `Book::cancel` with the queue entry deleted as well. -/
def cancelEager (b : Book) (id : UInt64) : Book :=
  match b.orders.find? id with
  | none => b
  | some r =>
    { b with
      bids := Levels.remove b.bids r.price id
      asks := Levels.remove b.asks r.price id
      orders := b.orders.erase id }

def applyEager (b : Book) : Op → Book
  | .limit side price qty id => b.limit side price qty id
  | .cancel id => b.cancelEager id

def runEager (ops : List Op) : Book := ops.foldl applyEager {}

/-! ## What an eager cancel preserves -/

theorem cancelEager_of_none {b : Book} {id : UInt64} (h : b.orders.find? id = none) :
    b.cancelEager id = b := by
  simp [cancelEager, h]

theorem own_cancelEager {b : Book} {id : UInt64} {r : Resting} (h : b.orders.find? id = some r)
    (side : UInt8) : (b.cancelEager id).own side = Levels.remove (b.own side) r.price id := by
  by_cases hs : side = sideBid <;> simp [own, cancelEager, h, hs]

@[simp] theorem orders_cancelEager (b : Book) (id : UInt64) :
    (b.cancelEager id).orders = b.orders.erase id := by
  cases h : b.orders.find? id with
  | none => rw [cancelEager_of_none h, OrdMap.erase_of_none h]
  | some r => simp [cancelEager, h]

theorem mem_remove_of_ne {m : Levels} (p : ℤ) {id id' : UInt64} (hne : id' ≠ id)
    (h : Levels.Mem id' m) : Levels.Mem id' (Levels.remove m p id) := by
  rcases h with ⟨p', lvl, hp', hid'⟩
  rcases Levels.find?_remove_of_ne p hne hp' hid' with ⟨lvl', hlvl', hmem⟩
  exact ⟨p', lvl', hlvl', hmem⟩

theorem wellFormed_cancelEager {b : Book} (h : b.WellFormed) (id : UInt64) :
    (b.cancelEager id).WellFormed := by
  cases hr : b.orders.find? id with
  | none =>
    rw [cancelEager_of_none hr]
    exact h
  | some r =>
    have hlive : ∀ {id' r'}, (b.cancelEager id).orders.find? id' = some r' →
        id' ≠ id ∧ b.orders.find? id' = some r' := by
      intro id' r' hr'
      rw [orders_cancelEager, OrdMap.find?_erase] at hr'
      split at hr'
      · simp at hr'
      · exact ⟨‹_›, hr'⟩
    have hbids : (b.cancelEager id).bids = Levels.remove b.bids r.price id := by
      simp [cancelEager, hr]
    have hasks : (b.cancelEager id).asks = Levels.remove b.asks r.price id := by
      simp [cancelEager, hr]
    constructor
    · rw [hbids]
      exact Levels.nonempty_remove h.bids_nonempty _ _
    · rw [hasks]
      exact Levels.nonempty_remove h.asks_nonempty _ _
    · intro p lvl p' lvl' hp hp'
      rw [hbids] at hp
      rw [hasks] at hp'
      rcases Levels.find?_remove hp with ⟨q, hq, -⟩
      rcases Levels.find?_remove hp' with ⟨q', hq', -⟩
      exact h.uncrossed hq hq'
    · exact fun hr' => h.positive (hlive hr').2
    · intro id' r' hr'
      rcases hlive hr' with ⟨hne, hr'⟩
      refine (h.queued hr').imp (fun hmem => ?_) fun hmem => ?_
      · rw [hbids]
        exact mem_remove_of_ne _ hne hmem
      · rw [hasks]
        exact mem_remove_of_ne _ hne hmem

theorem placed_cancelEager {ops : List Op} {b : Book} (h : b.Placed ops) (id : UInt64) :
    (b.cancelEager id).Placed ops := by
  cases hr : b.orders.find? id with
  | none =>
    rw [cancelEager_of_none hr]
    exact h
  | some r =>
    constructor
    · intro side p lvl hp
      rw [own_cancelEager hr] at hp
      rcases Levels.find?_remove hp with ⟨q, hq, rfl | rfl⟩
      · exact h.queue side hq
      · exact List.erase_sublist.trans (h.queue side hq)
    · intro id' r' hr'
      rw [orders_cancelEager, OrdMap.find?_erase] at hr'
      split at hr'
      case isTrue => simp at hr'
      case isFalse hne =>
        rcases h.record hr' with ⟨side, qty, lvl, hop, hle, hlvl, hid⟩
        rcases Levels.find?_remove_of_ne r.price hne hlvl hid with ⟨lvl', hlvl', hid'⟩
        exact ⟨side, qty, lvl', hop, hle, own_cancelEager hr side ▸ hlvl', hid'⟩

/-! ## The market of an eager cancel -/

theorem liveIn_erase_id {orders : Orders} {id : UInt64} (h : orders.find? id = none)
    (ids : List UInt64) : liveIn orders (ids.erase id) = liveIn orders ids := by
  induction ids with
  | nil => rfl
  | cons id' ids ih =>
    by_cases heq : id' = id
    · subst heq
      rw [List.erase_cons_head, liveIn_cons_of_none h]
    · rw [List.erase_cons_tail (by simpa using heq)]
      cases hr : orders.find? id' with
      | none => rw [liveIn_cons_of_none hr, liveIn_cons_of_none hr, ih]
      | some r => rw [liveIn_cons_of_some hr, liveIn_cons_of_some hr, ih]

/-- Deleting the entry of a dead order is not seen. -/
theorem priority_remove {orders : Orders} {id : UInt64} (h : orders.find? id = none) (side : UInt8)
    (m : Levels) (p : ℤ) :
    priority side orders (Levels.remove m p id) = priority side orders m := by
  cases hm : m.find? p with
  | none => simp [Levels.remove, hm]
  | some lvl =>
    have hremove : Levels.remove m p id =
        m.alter p fun _ => if lvl.erase id = [] then none else some (lvl.erase id) := by
      simp [Levels.remove, hm, Levels.put_eq_alter]
    rcases bestFirst_alter side m p fun _ =>
      if lvl.erase id = [] then none else some (lvl.erase id) with ⟨F, B, -, -, hbefore, hafter⟩
    have hlive : liveIn orders (((if lvl.erase id = [] then none
        else some (lvl.erase id)).map (p, ·)).toList.flatMap Prod.snd) = liveIn orders lvl := by
      rw [← liveIn_erase_id h lvl]
      split
      · rename_i hnil
        rw [hnil]
        rfl
      · simp
    have hold : liveIn orders (((some lvl).map (p, ·)).toList.flatMap Prod.snd) =
        liveIn orders lvl := by simp
    rw [hm] at hbefore
    simp only [priority, hremove, hbefore, hafter, List.flatMap_append, liveIn_append, hlive, hold]

/-- **An eager cancel does to the market what a cancel does.** -/
@[simp] theorem market_cancelEager (b : Book) (id : UInt64) :
    (b.cancelEager id).market = b.market.cancel id := by
  rw [← market_cancel]
  cases hr : b.orders.find? id with
  | none => simp [cancelEager, cancel, hr]
  | some r =>
    have hdead : (b.orders.erase id).find? id = none := by simp
    simp only [market, cancelEager, cancel, hr, priority_remove hdead]

/-! ## What can be observed -/

/-- Lists in the order of a key are equal if they have the same elements in the same order
under each key. -/
theorem eq_of_filter_eq {α κ : Type} [LinearOrder κ] {key : α → κ} {l l' : List α}
    (hl : l.Pairwise fun a b => key a ≤ key b) (hl' : l'.Pairwise fun a b => key a ≤ key b)
    (h : ∀ k, (l.filter fun a => key a = k) = l'.filter fun a => key a = k) : l = l' := by
  induction l generalizing l' with
  | nil =>
    cases l' with
    | nil => rfl
    | cons b l' =>
      have := h (key b)
      simp at this
  | cons a l ih =>
    cases l' with
    | nil =>
      have := h (key a)
      simp at this
    | cons b l' =>
      have hmin : ∀ {x : α} {xs : List α}, (x :: xs).Pairwise (fun a b => key a ≤ key b) →
          ∀ y ∈ x :: xs, key x ≤ key y := by
        intro x xs hxs y hy
        rcases List.mem_cons.mp hy with rfl | hy
        · exact le_rfl
        · exact (List.pairwise_cons.mp hxs).1 y hy
      have hmem : a ∈ (b :: l').filter fun c => key c = key a := by
        rw [← h (key a)]
        simp
      have hmem' : b ∈ (a :: l).filter fun c => key c = key b := by
        rw [h (key b)]
        simp
      have hkey : key b = key a := le_antisymm (hmin hl' a (List.mem_of_mem_filter hmem))
        (hmin hl b (List.mem_of_mem_filter hmem'))
      have hhead : a = b ∧
          (l.filter fun c => key c = key a) = l'.filter fun c => key c = key a := by
        simpa [hkey] using h (key a)
      rcases hhead with ⟨rfl, htail⟩
      congr 1
      refine ih (List.pairwise_cons.mp hl).2 (List.pairwise_cons.mp hl').2 ?_
      intro k
      by_cases hk : key a = k
      · exact hk ▸ htail
      · simpa [hk] using h k

/-- The live orders at one price, read off the priority of a side. -/
theorem filter_priority {orders : Orders} {m : Levels} (h : PricedBy orders m) (side : UInt8)
    (p : ℤ) : ((priority side orders m).filter fun o => o.price = p) =
      liveIn orders ((m.find? p).getD []) := by
  rcases bestFirst_alter side m p id with ⟨F, B, hF, hB, hbefore, -⟩
  have hmem : ∀ e ∈ F ++ ((m.find? p).map (p, ·)).toList ++ B, m.find? e.1 = some e.2 :=
    fun e he => mem_bestFirst.mp (hbefore ▸ he)
  have hlvl : (((m.find? p).map (p, ·)).toList).flatMap Prod.snd = (m.find? p).getD [] := by
    cases m.find? p <;> simp
  have hother : ∀ ls : List (ℤ × List UInt64), (∀ e ∈ ls, m.find? e.1 = some e.2) →
      (∀ e ∈ ls, e.1 ≠ p) →
      ((liveIn orders (ls.flatMap Prod.snd)).filter fun o => LiveOrder.price o = p) = [] := by
    intro ls hls hne
    refine List.filter_eq_nil_iff.mpr ?_
    intro o ho
    rcases price_of_mem_liveIn h hls ho with ⟨e, he, heq⟩
    rw [heq]
    simpa using hne e he
  have hat : ((liveIn orders ((m.find? p).getD [])).filter fun o => LiveOrder.price o = p) =
      liveIn orders ((m.find? p).getD []) := by
    refine List.filter_eq_self.mpr ?_
    intro o ho
    rw [← hlvl] at ho
    rcases price_of_mem_liveIn h (fun e he => hmem e (by simp [he])) ho with ⟨e, he, heq⟩
    rcases Option.map_eq_some_iff.mp (Option.mem_toList.mp he) with ⟨q, -, rfl⟩
    simpa using heq
  have hne : ∀ {q}, better side q p ∨ better side p q → q ≠ p := by
    rintro q (hb | hb) rfl
    · exact better_asymm hb hb
    · exact better_asymm hb hb
  rw [priority, hbefore, List.flatMap_append, List.flatMap_append, liveIn_append, liveIn_append,
    hlvl, List.filter_append, List.filter_append, hat,
    hother F (fun e he => hmem e (by simp [he])) fun e he => hne (Or.inl (hF e he)),
    hother B (fun e he => hmem e (by simp [he])) fun e he => hne (Or.inr (hB e he)),
    List.nil_append, List.append_nil]

/-- In ascending price order, the live orders of a side are those of its priority. -/
theorem liveOn_eq_of_priority {side : UInt8} {orders orders' : Orders} {m m' : Levels}
    (h : PricedBy orders m) (h' : PricedBy orders' m')
    (heq : priority side orders m = priority side orders' m') :
    liveOn orders m = liveOn orders' m' := by
  have hasc : ∀ {orders : Orders} {m : Levels}, PricedBy orders m →
      (liveOn orders m).Pairwise fun o o' => LiveOrder.price o ≤ LiveOrder.price o' := by
    intro orders m h
    refine (priority_sorted h sideBid).imp ?_
    intro o o' hb
    simpa [better] using hb
  have hfilter : ∀ {orders : Orders} {m : Levels}, PricedBy orders m → ∀ p,
      ((liveOn orders m).filter fun o => LiveOrder.price o = p) =
        (priority side orders m).filter fun o => o.price = p := by
    intro orders m h p
    rw [filter_priority h side p]
    exact filter_priority h sideBid p
  refine eq_of_filter_eq (hasc h) (hasc h') ?_
  intro p
  rw [hfilter h, hfilter h', heq]

/-- The live map is the set of the orders of the market. -/
theorem find?_eq_some_iff_market {b : Book} (hwf : b.WellFormed) {id : UInt64} {r : Resting} :
    b.orders.find? id = some r ↔ (id, r) ∈ b.market.bids ∨ (id, r) ∈ b.market.asks := by
  simp only [market, mem_priority]
  constructor
  · intro hr
    exact (hwf.queued hr).imp (fun hid => ⟨hid, hr⟩) fun hid => ⟨hid, hr⟩
  · rintro (⟨-, hr⟩ | ⟨-, hr⟩) <;> exact hr

/-- Two books that cannot be told apart: the counters, the live orders of each side in
ascending price and queue order, and the fills of any further limit are the same. -/
structure Indistinguishable (b e : Book) : Prop where
  fills : b.fills = e.fills
  volume : b.volume = e.volume
  resting : b.resting = e.resting
  checksum : b.checksum = e.checksum
  live : ∀ side, liveOn b.orders (b.own side) = liveOn e.orders (e.own side)
  log : ∀ side price qty, b.limitLog side price qty = e.limitLog side price qty

/-- **What is observed of a book is a function of its market.** -/
theorem indistinguishable_of_market {ops : List Op} (hops : NeverReused ops) {b e : Book}
    (hb : b.WellFormed) (he : e.WellFormed) (hbp : b.Placed ops) (hep : e.Placed ops)
    (h : b.market = e.market) : b.Indistinguishable e := by
  have hpriced : ∀ {b : Book}, b.Placed ops → ∀ side, PricedBy b.orders (b.own side) :=
    fun hp side _ _ _ _ hlvl hid hr => hp.price_eq hops hlvl hid hr
  have hbids : liveOn b.orders b.bids = liveOn e.orders e.bids :=
    liveOn_eq_of_priority (hpriced hbp sideBid) (hpriced hep sideBid) (congrArg Market.bids h)
  have hasks : liveOn b.orders b.asks = liveOn e.orders e.asks :=
    liveOn_eq_of_priority (hpriced hbp sideAsk) (hpriced hep sideAsk) (congrArg Market.asks h)
  have horders : b.orders = e.orders := by
    refine OrdMap.ext_find? fun id => Option.ext ?_
    intro r
    rw [find?_eq_some_iff_market hb, find?_eq_some_iff_market he, h]
  refine ⟨congrArg Market.fills h, congrArg Market.volume h, congrArg OrdMap.size horders,
    ?_, ?_, ?_⟩
  · rw [checksum_eq, checksum_eq, folded, folded, hbids, hasks]
  · intro side
    by_cases hs : side = sideBid
    · simpa [own, hs] using hbids
    · simpa [own, hs] using hasks
  · intro side price qty
    rw [market_limitLog hops hbp, market_limitLog hops hep, h]

/-- **The eager run** keeps the invariants of the lazy run, and stands for the same market. -/
theorem eager_run {ops : List Op} (h : NeverReused ops) :
    (runEager ops).WellFormed ∧ (runEager ops).Placed ops ∧
      (runEager ops).market = (run ops).market := by
  induction ops using List.reverseRecOn with
  | nil => exact ⟨wellFormed_empty, placed_empty, rfl⟩
  | append_singleton ops op ih =>
    have hops := h.of_prefix (List.prefix_append _ _)
    have hlazy := placed_run (noLiveReuse_of_neverReused hops)
    rcases ih hops with ⟨hwf, hplaced, hmarket⟩
    have hrun : runEager (ops ++ [op]) = (runEager ops).applyEager op := by simp [runEager]
    rw [hrun, run_append]
    cases op with
    | limit side price qty id =>
      have hid := h.not_mem_of_append
      refine ⟨wellFormed_limit hwf side price qty id,
        placed_apply hplaced hwf (hplaced.fresh h), ?_⟩
      simp only [applyEager, apply]
      rw [market_limit hops hplaced side price qty hid, market_limit hops hlazy side price qty hid,
        hmarket]
    | cancel id =>
      refine ⟨wellFormed_cancelEager hwf id, (placed_cancelEager hplaced id).mono _, ?_⟩
      simp only [applyEager, apply]
      rw [market_cancelEager, market_cancel, hmarket]

/-- **Lazy cancellation is eager cancellation.** After every prefix of a sequence that uses
no id twice, the two books cannot be told apart. -/
theorem indistinguishable_run {ops : List Op} (h : NeverReused ops) {pre : List Op}
    (hpre : pre <+: ops) : (run pre).Indistinguishable (runEager pre) := by
  have hops := h.of_prefix hpre
  rcases eager_run hops with ⟨hwf, hplaced, hmarket⟩
  exact indistinguishable_of_market hops (wellFormed_run pre) hwf
    (placed_run (noLiveReuse_of_neverReused hops)) hplaced hmarket.symm

theorem indistinguishable_dead_level :
    (run [.limit 0 10 5 1, .limit 0 12 4 2, .cancel 2, .limit 1 9 3 3]).Indistinguishable
      (runEager [.limit 0 10 5 1, .limit 0 12 4 2, .cancel 2, .limit 1 9 3 3]) :=
  indistinguishable_run (by decide) (List.prefix_refl _)

end Book
end LmaxBench.Cpp
