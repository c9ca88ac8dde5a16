import Mathlib.Data.List.Nodup
import Mathlib.Data.List.Permutation
import MiniSql.Proofs.Offers

/-!
# Who decides a node

The claims on a node settle one after another until one of them decides the node. In a race the
order is that of their delays, claims of equal delay in registration order, and the first claim that
does not fail decides. Under the ordered policy they settle in registration order, and the first one
that claims the node decides. `node_decided` says so of the evaluator, whatever its extensions: the
node takes the value of the deciding claim, or is handled as usual, and the log names the failing
claims that settled before it.

`settle_cases` follows the recursion of `ClaimPolicy.settle`; everything about the order comes from
`pairwise_order`.
-/

namespace MiniSql

/-! ## Claims and their lines in the log -/

namespace Claim

def fails (c : Claim) : Bool :=
  match c.outcome with
  | .failed _ => true
  | .claimed _ | .declined => false

/-- The value that the node is claimed with, if it is. -/
def value? (c : Claim) : Option Value :=
  match c.outcome with
  | .claimed v => some v
  | .declined | .failed _ => none

/-- A claim that fails has no value. -/
theorem value?_of_fails {c : Claim} (h : c.fails = true) : c.value? = none := by
  rw [fails] at h
  rw [value?]
  cases houtcome : c.outcome with
  | failed e => rfl
  | claimed v => rw [houtcome] at h; nomatch h
  | declined => rfl

theorem outcome_of_value? {c : Claim} {v : Value} (h : c.value? = some v) :
    c.outcome = .claimed v := by
  rw [value?] at h
  cases houtcome : c.outcome with
  | claimed v' => rw [houtcome] at h; rw [Option.some.inj h]
  | declined => rw [houtcome] at h; nomatch h
  | failed e => rw [houtcome] at h; nomatch h

end Claim

namespace Offer

/-- The line that a failing claim leaves in the log. -/
def rejection? (o : Offer) : Option LogLine :=
  match o.claim.outcome with
  | .failed e => some ⟨.warn, s!"claim hook of {o.owner} rejected: {e.render}"⟩
  | .claimed _ | .declined => none

/-- The claim and the name of its owner, wherever the owner is registered. -/
def hook (o : Offer) : String × Claim := (o.owner, o.claim)

/-- Failing claims, and no others, are reported in the log. -/
theorem rejection?_isSome (o : Offer) : o.rejection?.isSome = o.claim.fails := by
  rw [rejection?, Claim.fails]
  cases o.claim.outcome <;> rfl

end Offer

/-- The lines that the claims on a node leave in the log. -/
def Resolution.rejections (r : Resolution) : List LogLine := r.settled.filterMap Offer.rejection?

/-- The log of everything that has happened. -/
def World.logLines {σ ω : Type} (w : World σ ω) : List LogLine :=
  w.journal.toList.filterMap Event.log?

theorem World.logLines_log {σ ω : Type} (w : World σ ω) (events : List Event) :
    (w.log events).logLines = w.logLines ++ events.filterMap Event.log? :=
  filterMap_journal_log w events Event.log?

namespace Evaluator

/-- Of claims that settle, the log shows the failures. -/
theorem log?_settledEvents (node : Node) (settled : List Offer) :
    (settled.flatMap (settledEvents node)).filterMap Event.log? =
      settled.filterMap Offer.rejection? := by
  -- by induction on the claims that have settled
  induction settled with
  | nil => rfl
  | cons o settled ih =>
    rw [List.flatMap_cons, List.filterMap_append, ih, settledEvents, List.filterMap_cons,
      List.filterMap_cons, Offer.rejection?]
    cases o.claim.outcome <;> rfl

end Evaluator

/-! ## The order of settling -/

namespace ClaimPolicy

/-- Of two claims on a node, the first settles before the second. -/
def SettlesBefore : ClaimPolicy → Offer → Offer → Prop
  | race, a, b => a.claim.delay < b.claim.delay ∨
      a.claim.delay = b.claim.delay ∧ a.place < b.place
  | ordered, a, b => a.place < b.place

/-- The claim leaves the node to those that settle after it. -/
def passesOver : ClaimPolicy → Claim → Bool
  | race, c => c.fails
  | ordered, c => c.value?.isNone

/-- The claim is the first to settle that does not leave the node to others. -/
structure Decides (policy : ClaimPolicy) (offers : List Offer) (d : Offer) : Prop where
  mem : d ∈ offers
  stands : policy.passesOver d.claim = false
  first : ∀ o ∈ offers, policy.SettlesBefore o d → policy.passesOver o.claim = true

/-- The lines tell of the failing claims among the chosen ones, one line each, in the order in which
these claims settle. -/
def Rejects (policy : ClaimPolicy) (offers : List Offer) (chosen : Offer → Prop)
    (lines : List LogLine) : Prop :=
  ∃ rejected : List Offer, rejected.Pairwise policy.SettlesBefore ∧
    (∀ o, o ∈ rejected ↔ o ∈ offers ∧ o.claim.fails = true ∧ chosen o) ∧
    rejected.map Offer.rejection? = lines.map some

variable {policy : ClaimPolicy} {offers : List Offer} {a b o d : Offer}

/-- Claims do not settle before each other. -/
theorem SettlesBefore.asymm (h : policy.SettlesBefore a b) : ¬ policy.SettlesBefore b a := by
  cases policy with
  | race =>
    simp only [SettlesBefore] at h ⊢
    omega
  | ordered => exact Nat.lt_asymm h

/-- Of two claims one settles first, because equal delays are told apart by registration. -/
theorem settlesBefore_or (h : a.place ≠ b.place) :
    policy.SettlesBefore a b ∨ policy.SettlesBefore b a := by
  cases policy with
  | race =>
    simp only [SettlesBefore]
    omega
  | ordered => exact Nat.lt_or_gt_of_ne h

/-- The order in which claims settle loses none and invents none. -/
theorem order_perm (policy : ClaimPolicy) (offers : List Offer) :
    (policy.order offers).Perm offers := by
  cases policy with
  | race => exact List.mergeSort_perm _ _
  | ordered => exact .refl _

/-- Sorting by delay keeps the registration order of claims that have the same delay. -/
theorem pairwise_order (hplaces : offers.Pairwise (·.place < ·.place)) :
    (policy.order offers).Pairwise policy.SettlesBefore := by
  cases policy with
  | ordered => exact hplaces
  | race =>
    let earlier (a b : Offer) : Bool := a.claim.delay ≤ b.claim.delay
    have htrans : ∀ a b c, earlier a b = true → earlier b c = true → earlier a c = true := by
      intro a b c hab hbc
      exact decide_eq_true (Nat.le_trans (of_decide_eq_true hab) (of_decide_eq_true hbc))
    have htotal : ∀ a b, (earlier a b || earlier b a) = true := by
      intro a b
      simp only [earlier, Bool.or_eq_true, decide_eq_true_eq]
      omega
    -- with their positions, no two claims are the same, and those of one delay are in order
    have hsorted := List.pairwise_mergeSort (List.zipIdxLE_trans htrans)
      (List.zipIdxLE_total htotal) offers.zipIdx
    have hdistinct : (offers.zipIdx.mergeSort (List.zipIdxLE earlier)).Pairwise (· ≠ ·) := by
      refine (List.mergeSort_perm _ _).symm.nodup (List.Nodup.of_map Prod.snd ?_)
      rw [List.zipIdx_map_snd]
      exact List.nodup_range'
    show (offers.mergeSort earlier).Pairwise (SettlesBefore .race)
    rw [← List.mergeSort_zipIdx, List.pairwise_map]
    refine (hsorted.and hdistinct).imp_of_mem ?_
    rintro ⟨a, i⟩ ⟨b, j⟩ ha hb ⟨hle, hne⟩
    have hi := List.mem_zipIdx_iff_getElem?.mp (List.mem_mergeSort.mp ha)
    have hj := List.mem_zipIdx_iff_getElem?.mp (List.mem_mergeSort.mp hb)
    dsimp only at hi hj
    obtain ⟨hi, hai⟩ := List.getElem?_eq_some_iff.mp hi
    obtain ⟨hj, hbj⟩ := List.getElem?_eq_some_iff.mp hj
    have hplace : i < j → a.place < b.place := by
      rw [← hai, ← hbj]
      exact List.pairwise_iff_getElem.mp hplaces i j hi hj
    have hposition : i ≠ j := by
      rintro rfl
      exact hne (by rw [← hai, ← hbj])
    simp only [List.zipIdxLE, earlier, decide_eq_true_eq] at hle
    show a.claim.delay < b.claim.delay ∨ a.claim.delay = b.claim.delay ∧ a.place < b.place
    by_cases hba : b.claim.delay ≤ a.claim.delay
    · by_cases hab : a.claim.delay ≤ b.claim.delay
      · rw [if_pos hab, if_pos hba, decide_eq_true_eq] at hle
        exact .inr ⟨Nat.le_antisymm hab hba, hplace (Nat.lt_of_le_of_ne hle hposition)⟩
      · rw [if_neg hab] at hle
        nomatch hle
    · exact .inl (Nat.lt_of_not_le hba)

/-! ## Settling -/

/-- A claim that is passed over settles, and leaves the decision to those behind it. -/
theorem settle_cons_of_passesOver (h : policy.passesOver o.claim = true) (rest : List Offer) :
    policy.settle (o :: rest) =
      ⟨o :: (policy.settle rest).settled, (policy.settle rest).value?⟩ := by
  rw [settle]
  cases houtcome : o.claim.outcome with
  | failed e => rfl
  | claimed v => cases policy <;> simp [passesOver, Claim.fails, Claim.value?, houtcome] at h
  | declined =>
    cases policy with
    | race => simp [passesOver, Claim.fails, houtcome] at h
    | ordered => rfl

/-- Behind the deciding claim nothing settles. -/
theorem settle_cons_of_not_passesOver (h : policy.passesOver o.claim = false)
    (rest : List Offer) : policy.settle (o :: rest) = ⟨[o], o.claim.value?⟩ := by
  rw [settle, Claim.value?]
  cases houtcome : o.claim.outcome with
  | claimed v => rfl
  | failed e => cases policy <;> simp [passesOver, Claim.fails, Claim.value?, houtcome] at h
  | declined =>
    cases policy with
    | race => rfl
    | ordered => simp [passesOver, Claim.value?, houtcome] at h

/-- Claims settle up to the first one that does not leave the node to others, if there is one. -/
theorem settle_cases (policy : ClaimPolicy) (offers : List Offer) :
    (∃ before d after, offers = before ++ d :: after ∧
      (∀ o ∈ before, policy.passesOver o.claim = true) ∧ policy.passesOver d.claim = false ∧
      policy.settle offers = ⟨before ++ [d], d.claim.value?⟩) ∨
    (∀ o ∈ offers, policy.passesOver o.claim = true) ∧
      policy.settle offers = ⟨offers, none⟩ := by
  induction offers with
  | nil => exact .inr ⟨List.forall_mem_nil _, rfl⟩
  | cons o rest ih =>
    cases hpass : policy.passesOver o.claim with
    | false =>
      exact .inl ⟨[], o, rest, rfl, List.forall_mem_nil _, hpass,
        settle_cons_of_not_passesOver hpass rest⟩
    | true =>
      have hsettle := settle_cons_of_passesOver hpass rest
      obtain ⟨before, d, after, rfl, hbefore, hd, hrest⟩ | ⟨hall, hrest⟩ := ih
      · rw [hrest] at hsettle
        exact .inl ⟨o :: before, d, after, rfl, List.forall_mem_cons.mpr ⟨hpass, hbefore⟩, hd,
          hsettle⟩
      · rw [hrest] at hsettle
        exact .inr ⟨List.forall_mem_cons.mpr ⟨hpass, hall⟩, hsettle⟩

/-- A node takes no value but that of a claim on it. -/
theorem exists_claimed_of_resolve {v : Value} (h : (policy.resolve offers).value? = some v) :
    ∃ o ∈ offers, o.claim.outcome = .claimed v := by
  rw [resolve] at h
  obtain ⟨before, d, after, horder, -, -, hsettle⟩ | ⟨-, hsettle⟩ :=
    settle_cases policy (policy.order offers)
  · rw [hsettle] at h
    have hd : d ∈ policy.order offers := horder ▸ List.mem_append_right _ List.mem_cons_self
    exact ⟨d, (order_perm policy offers).mem_iff.mp hd, Claim.outcome_of_value? h⟩
  · rw [hsettle] at h
    nomatch h

/-- Without a claim that has a value the node is handled as usual. -/
theorem resolve_of_no_value (h : ∀ o ∈ offers, o.claim.value? = none) (policy : ClaimPolicy) :
    (policy.resolve offers).value? = none := by
  by_contra hne
  obtain ⟨v, hv⟩ := Option.ne_none_iff_exists'.mp hne
  obtain ⟨o, ho, houtcome⟩ := exists_claimed_of_resolve hv
  have hnone := h o ho
  rw [Claim.value?, houtcome] at hnone
  nomatch hnone

/-- A claim without rivals decides under any policy. -/
theorem resolve_of_sole (policy : ClaimPolicy) (o : Offer) :
    (policy.resolve [o]).value? = o.claim.value? := by
  rw [resolve, List.perm_singleton.mp (order_perm policy [o]), settle, Claim.value?]
  cases o.claim.outcome with
  | claimed v => rfl
  | failed e => rfl
  | declined => cases policy <;> rfl

theorem passesOver_of_fails {c : Claim} (h : c.fails = true) : policy.passesOver c = true := by
  cases policy with
  | race => exact h
  | ordered => rw [passesOver, Claim.value?_of_fails h, Option.isNone_none]

theorem passesOver_of_value? {c : Claim} (h : c.value?.isSome = true) :
    policy.passesOver c = false := by
  cases policy with
  | race =>
    by_contra hfails
    rw [Bool.not_eq_false] at hfails
    rw [Claim.value?_of_fails hfails] at h
    nomatch h
  | ordered => rw [passesOver, Option.isNone_eq_false_iff, h]

theorem rejection?_of_not_passesOver (h : policy.passesOver o.claim = false) :
    o.rejection? = none := by
  have hfails : o.claim.fails = false := by
    by_contra hfails
    rw [Bool.not_eq_false] at hfails
    rw [passesOver_of_fails hfails] at h
    nomatch h
  rw [← Offer.rejection?_isSome] at hfails
  exact Option.isSome_eq_false_iff.mp hfails |> Option.isNone_iff_eq_none.mp

theorem rejects_filterMap {before : List Offer} {chosen : Offer → Prop}
    (hsorted : before.Pairwise policy.SettlesBefore)
    (hmem : ∀ o, o ∈ before ↔ o ∈ offers ∧ chosen o) :
    policy.Rejects offers chosen (before.filterMap Offer.rejection?) := by
  refine ⟨before.filter (·.claim.fails), hsorted.filter _, fun o => ?_, ?_⟩
  · rw [List.mem_filter, hmem]
    tauto
  · clear hsorted hmem
    induction before with
    | nil => rfl
    | cons o before ih =>
      rw [List.filter_cons, ← o.rejection?_isSome]
      cases hline : o.rejection? with
      | none =>
        rw [List.filterMap_cons_none hline, ← ih]
        rfl
      | some line =>
        rw [List.filterMap_cons_some hline, Option.isSome_some, if_pos rfl, List.map_cons,
          List.map_cons, hline, ih]

/-- At most one claim decides a node. -/
theorem Decides.unique (hplaces : offers.Pairwise (·.place < ·.place))
    (h : policy.Decides offers a) (h' : policy.Decides offers b) : a = b := by
  -- two deciding claims could not settle one before the other
  have hab : ¬ policy.SettlesBefore a b := fun hlt =>
    Bool.false_ne_true (h.stands.symm.trans (h'.first a h.mem hlt))
  have hba : ¬ policy.SettlesBefore b a := fun hlt =>
    Bool.false_ne_true (h'.stands.symm.trans (h.first b h'.mem hlt))
  have hplace : a.place = b.place := by
    by_contra hne
    exact (settlesBefore_or hne).elim hab hba
  have hinj : (offers.map Offer.place).Nodup :=
    List.pairwise_map.mpr (hplaces.imp Nat.ne_of_lt)
  exact List.inj_on_of_nodup_map hinj h.mem h'.mem hplace

/-- The claim that decides is the first to stand, and the lines of the failures before it are
logged. -/
theorem resolve_cases (hplaces : offers.Pairwise (·.place < ·.place)) :
    (∃ d, policy.Decides offers d ∧ (policy.resolve offers).value? = d.claim.value? ∧
      policy.Rejects offers (policy.SettlesBefore · d) (policy.resolve offers).rejections) ∨
    (∀ o ∈ offers, policy.passesOver o.claim = true) ∧ (policy.resolve offers).value? = none ∧
      policy.Rejects offers (fun _ => True) (policy.resolve offers).rejections := by
  have hsorted : (policy.order offers).Pairwise policy.SettlesBefore := pairwise_order hplaces
  have hmem (o : Offer) : o ∈ policy.order offers ↔ o ∈ offers := (order_perm policy offers).mem_iff
  rw [resolve, Resolution.rejections]
  obtain ⟨before, d, after, horder, hbefore, hd, hsettle⟩ | ⟨hall, hsettle⟩ :=
    settle_cases policy (policy.order offers)
  · rw [horder] at hsorted
    obtain ⟨hsortedBefore, hsortedAfter, hacross⟩ := List.pairwise_append.mp hsorted
    -- the claims in front of the deciding one are those that settle before it
    have hfront (o : Offer) : o ∈ before ↔ o ∈ offers ∧ policy.SettlesBefore o d := by
      rw [← hmem, horder]
      refine ⟨fun ho => ⟨List.mem_append_left _ ho, hacross o ho d List.mem_cons_self⟩, ?_⟩
      rintro ⟨ho, hlt⟩
      rcases List.mem_append.mp ho with ho | ho
      · exact ho
      rcases List.mem_cons.mp ho with rfl | ho
      · exact absurd hlt hlt.asymm
      · exact absurd hlt (List.rel_of_pairwise_cons hsortedAfter ho).asymm
    have hdecides : policy.Decides offers d := by
      refine ⟨(hmem d).mp ?_, hd, fun o ho hlt => hbefore o ((hfront o).mpr ⟨ho, hlt⟩)⟩
      rw [horder]
      exact List.mem_append_right _ List.mem_cons_self
    refine .inl ⟨d, hdecides, by rw [hsettle], ?_⟩
    rw [hsettle, List.filterMap_append, List.filterMap_cons_none (rejection?_of_not_passesOver hd),
      List.filterMap_nil, List.append_nil]
    exact rejects_filterMap hsortedBefore hfront
  · refine .inr ⟨fun o ho => hall o ((hmem o).mpr ho), by rw [hsettle], ?_⟩
    rw [hsettle]
    exact rejects_filterMap hsorted fun o => by rw [hmem, and_true]

/-! ## Registration order in a race -/

/-- The names of the extensions and their places do not decide, only their hooks do. -/
theorem settle_congr {as bs : List Offer} (h : as.map Offer.hook = bs.map Offer.hook) :
    (policy.settle as).value? = (policy.settle bs).value? ∧
      (policy.settle as).rejections = (policy.settle bs).rejections := by
  induction as generalizing bs with
  | nil =>
    obtain rfl := List.map_eq_nil_iff.mp h.symm
    exact ⟨rfl, rfl⟩
  | cons a as ih =>
    obtain ⟨b, bs, rfl, hb, hbs⟩ := List.map_eq_cons_iff.mp h.symm
    obtain ⟨howner, hclaim⟩ := Prod.mk.inj hb
    obtain ⟨hvalue, hlines⟩ := ih hbs.symm
    have hline : b.rejection? = a.rejection? := by
      rw [Offer.rejection?, Offer.rejection?, howner, hclaim]
    have hcons (o : Offer) (settled : List Offer) (value? : Option Value) :
        (Resolution.mk (o :: settled) value?).rejections =
          o.rejection?.toList ++ settled.filterMap Offer.rejection? := by
      rw [Resolution.rejections, List.filterMap_cons]
      cases o.rejection? <;> rfl
    cases hpass : policy.passesOver a.claim with
    | true =>
      have hpass' : policy.passesOver b.claim = true := by rw [hclaim, hpass]
      rw [settle_cons_of_passesOver hpass, settle_cons_of_passesOver hpass', hcons, hcons, hline]
      exact ⟨hvalue, congrArg _ hlines⟩
    | false =>
      have hpass' : policy.passesOver b.claim = false := by rw [hclaim, hpass]
      rw [settle_cons_of_not_passesOver hpass, settle_cons_of_not_passesOver hpass', hcons, hcons,
        hline, hclaim]
      exact ⟨rfl, rfl⟩

/-- Claims of different delays settle in an order that does not depend on registration. -/
theorem order_race_congr {as bs : List Offer} (h : (as.map Offer.hook).Perm (bs.map Offer.hook))
    (hdelays : (bs.map (·.claim.delay)).Nodup) :
    (ClaimPolicy.race.order as).map Offer.hook = (ClaimPolicy.race.order bs).map Offer.hook := by
  have hsorted (offers : List Offer) : ((ClaimPolicy.race.order offers).map Offer.hook).Pairwise
      fun x y => x.2.delay ≤ y.2.delay := by
    rw [List.pairwise_map]
    refine (List.pairwise_mergeSort ?_ ?_ offers).imp of_decide_eq_true
    · intro a b c hab hbc
      exact decide_eq_true (Nat.le_trans (of_decide_eq_true hab) (of_decide_eq_true hbc))
    · intro a b
      simp only [Bool.or_eq_true, decide_eq_true_eq]
      omega
  have hperm (offers : List Offer) : ((ClaimPolicy.race.order offers).map Offer.hook).Perm
      (offers.map Offer.hook) := (order_perm .race offers).map _
  refine List.Perm.eq_of_pairwise ?_ (hsorted as) (hsorted bs)
    ((hperm as).trans (h.trans (hperm bs).symm))
  intro x y hx hy hxy hyx
  -- two hooks of one delay are the same hook
  have hinj : ((bs.map Offer.hook).map fun x => x.2.delay).Nodup := by
    rw [List.map_map]
    exact hdelays
  exact List.inj_on_of_nodup_map hinj (h.mem_iff.mp ((hperm as).mem_iff.mp hx))
    ((hperm bs).mem_iff.mp hy) (Nat.le_antisymm hxy hyx)

end ClaimPolicy

/-! ## The decision of a node -/

namespace Evaluator

variable {σ ω : Type}

theorem logLines_resolved (ev : Evaluator σ ω) (node : Node) (w : World σ ω) :
    (ev.resolved node w).logLines = w.logLines ++ (ev.resolution node w).rejections := by
  -- that an extension is asked leaves no line
  have hasked : ((ev.offersOn node w).map fun offer =>
      Event.asked offer.place node).filterMap Event.log? = [] := by
    rw [List.filterMap_map]
    exact List.filterMap_eq_nil_iff.mpr fun _ _ => rfl
  rw [resolved, World.logLines_log, List.filterMap_append, hasked, List.nil_append,
    log?_settledEvents]
  rfl

/-- One claim decides the node: of those that stand, the one that settles first. The node takes its
value or is handled as usual, and the failures before it are logged. In a race of claims whose
delays differ, the order of registration changes nothing. -/
theorem node_decided (ev : Evaluator σ ω) (node : Node) (handle : Action EvalError σ ω Value)
    (w : World σ ω) :
    let policy := w.context.policy
    let offers := ev.offersOn node w
    let r := ev.resolution node w
    (∃ w₁, ev.claimOrHandle node handle w = (match r.value? with
        | some v => .ok ⟨v, true⟩ (w₁.log [.claimed node])
        | none => (handle >>= fun v => pure ⟨v, false⟩ : Action EvalError σ ω Visit) w₁) ∧
      w₁.context = w.context ∧ w₁.state = w.state ∧ w₁.logLines = w.logLines ++ r.rejections) ∧
    ((∃ d, policy.Decides offers d ∧ (∀ d', policy.Decides offers d' → d' = d) ∧
        r.value? = d.claim.value? ∧
        policy.Rejects offers (policy.SettlesBefore · d) r.rejections) ∨
      (∀ o ∈ offers, policy.passesOver o.claim = true) ∧ r.value? = none ∧
        policy.Rejects offers (fun _ => True) r.rejections) ∧
    (policy = .race → (offers.map (·.claim.delay)).Nodup →
      ∀ (ev' : Evaluator σ ω) (w' : World σ ω), w'.context.policy = .race →
        ((ev'.offersOn node w').map Offer.hook).Perm (offers.map Offer.hook) →
        (ev'.resolution node w').value? = r.value? ∧
          (ev'.resolution node w').rejections = r.rejections) := by
  intro policy offers r
  have hplaces : offers.Pairwise (·.place < ·.place) := ev.pairwise_place_offersOn node w
  have hresolved := ev.claimOrHandle_eq_resolved node w handle
  refine ⟨⟨_, hresolved, rfl, rfl, ev.logLines_resolved node w⟩, ?_,
    fun hrace hdelays ev' w' hrace' hperm => ?_⟩
  · obtain ⟨d, hd, hvalue, hrejects⟩ | hall := ClaimPolicy.resolve_cases hplaces
    · exact .inl ⟨d, hd, fun d' hd' => hd'.unique hplaces hd, hvalue, hrejects⟩
    · exact .inr hall
  · have hpolicy : w.context.policy = .race := hrace
    show (w'.context.policy.resolve _).value? = (w.context.policy.resolve _).value? ∧
      (w'.context.policy.resolve _).rejections = (w.context.policy.resolve _).rejections
    rw [hrace', hpolicy]
    exact ClaimPolicy.settle_congr (ClaimPolicy.order_race_congr hperm hdelays)

namespace Rivals

/-- Makes the same claim on every node. -/
def rival (name : String) (claim : Claim) : Extension Unit :=
  { name, claim? := fun _ _ memory => (some claim, memory) }

def rivals : List (Extension Unit) :=
  [rival "steady" ⟨5, .claimed (.name "a")⟩, rival "broken" ⟨3, .failed ⟨"x", "no"⟩⟩,
    rival "late" ⟨7, .failed ⟨"y", "no"⟩⟩, rival "hasty" ⟨1, .failed ⟨"z", "no"⟩⟩]

def racing (xs : List (Extension Unit)) : Evaluator DryRun Unit := ⟨DryRun.backend, xs, .race⟩

def start : World DryRun Unit := ⟨.fresh .race, ⟨[]⟩, (), #[]⟩

def node : Node := .expr (.identifier "b")

def rejections : List LogLine :=
  [⟨.warn, "claim hook of hasty rejected: extension \"z\": no"⟩,
    ⟨.warn, "claim hook of broken rejected: extension \"x\": no"⟩]

/-- Registered backwards, the rivals have the same winner and the same losers. -/
theorem reversed_rivals_decided : start.context.policy = .race ∧
    (((racing rivals).offersOn node start).map (·.claim.delay)).Nodup ∧
    (((racing rivals.reverse).offersOn node start).map Offer.hook).Perm
      (((racing rivals).offersOn node start).map Offer.hook) ∧
    ((racing rivals).resolution node start).value? = some (.name "a") ∧
    ((racing rivals).resolution node start).rejections = rejections ∧
    ((racing rivals.reverse).resolution node start).value? =
      ((racing rivals).resolution node start).value? ∧
    ((racing rivals.reverse).resolution node start).rejections =
      ((racing rivals).resolution node start).rejections := by
  have hdelays : (((racing rivals).offersOn node start).map (·.claim.delay)).Nodup := by decide
  have hreversed : ((racing rivals.reverse).offersOn node start).map Offer.hook =
      (((racing rivals).offersOn node start).map Offer.hook).reverse := rfl
  have hperm : (((racing rivals.reverse).offersOn node start).map Offer.hook).Perm
      (((racing rivals).offersOn node start).map Offer.hook) :=
    hreversed ▸ List.reverse_perm _
  obtain ⟨-, -, hrace⟩ := node_decided (racing rivals) node (pure .null) start
  refine ⟨rfl, hdelays, hperm, ?_, by cbv, ?_⟩
  · cbv
  · exact hrace rfl hdelays (racing rivals.reverse) start rfl hperm

end Rivals

end Evaluator

end MiniSql
