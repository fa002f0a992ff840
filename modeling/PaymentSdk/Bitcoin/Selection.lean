import PaymentSdk.Bitcoin.Build

/-!
# Coin selection

A transaction that is built spends the request's own sources, pays its recipients and the
predicted fee, and gives no more away than an output for the rest would cost. When all sources
are equally heavy, a request fails for lack of funds only if no choice of sources can pay it.
-/

open Std Checked

namespace PaymentSdk.Bitcoin

variable {lib : Library} {r : BuildRequest} {c : BuildRequest.Selection}

/-! ## The loop -/

/-- Where the loop stops: the selected sources pay the recipients and the fee. -/
structure Stopped (lib : Library) (r : BuildRequest) (c : BuildRequest.Selection) (selected : List SpendSource)
    (outputs : List Output) (total fee feeWithChange : UInt64) : Prop where
  total_eq : total.toNat = worth selected
  fee_eq : predictedFee selected c.recipientScripts r.feeRate = .ok fee
  covered : c.recipientTotal.toNat + fee.toNat ≤ total.toNat
  feeWithChange_eq : predictedFee selected (c.recipientScripts ++ [c.changeScript]) r.feeRate = .ok feeWithChange
  outputs_eq : outputs = r.recipients ++
    (BuildRequest.changeOf lib c total feeWithChange).toList.map (⟨r.changeAddress, ·⟩)

/-- The sources do not pay the recipients and the fee. -/
def Short (r : BuildRequest) (c : BuildRequest.Selection) (sources : List SpendSource) : Prop :=
  worth sources < c.recipientTotal.toNat + exactFee sources c.recipientScripts r.feeRate

/-- **Step.** One turn of the loop: another source is selected, and either the loop stops or
the sources are still short. -/
theorem selectFrom_cons {selected rest : List SpendSource} {total : UInt64} {utxo : SpendSource}
    {out : List SpendSource × Option (List Output)} (htotal : total.toNat = worth selected)
    (h : r.selectFrom lib c selected total (utxo :: rest) = .ok out) :
    (∃ outputs total fee feeWithChange, out = (selected ++ [utxo], some outputs) ∧
        Stopped lib r c (selected ++ [utxo]) outputs total fee feeWithChange) ∨
      Short r c (selected ++ [utxo]) ∧ ∃ total', total'.toNat = worth (selected ++ [utxo]) ∧
        r.selectFrom lib c (selected ++ [utxo]) total' rest = .ok out := by
  simp only [BuildRequest.selectFrom, bind_ok, okOr_ok] at h
  obtain ⟨total', hadd, fee, hfee, required, hrequired, h⟩ := h
  have htotal' : total'.toNat = worth (selected ++ [utxo]) := by
    rw [Word.checkedAdd_some.mp hadd, htotal]
    simp [worth]
  have hsum := Word.checkedAdd_some.mp hrequired
  split_ifs at h with hlt
  · refine .inr ⟨?_, total', htotal', h⟩
    rw [UInt64.lt_iff_toNat_lt, hsum, htotal', (predictedFee_ok.mp hfee).2] at hlt
    exact hlt
  · rw [UInt64.lt_iff_toNat_lt, hsum, Nat.not_lt] at hlt
    obtain ⟨feeWithChange, hwith, hout⟩ := bind_ok.mp h
    exact .inl ⟨_, total', fee, feeWithChange, pure_ok.mp hout, htotal', hfee, hlt, hwith, rfl⟩

/-- **Run.** The loop stops at a front of the sources. -/
theorem selectFrom_some {rest selected sel : List SpendSource} {total : UInt64} {outputs : List Output}
    (htotal : total.toNat = worth selected)
    (h : r.selectFrom lib c selected total rest = .ok (sel, some outputs)) :
    (∃ taken left, rest = taken ++ left ∧ taken ≠ [] ∧ sel = selected ++ taken) ∧
      ∃ total fee feeWithChange, Stopped lib r c sel outputs total fee feeWithChange := by
  induction rest generalizing selected total with
  | nil => cases h
  | cons utxo rest ih =>
    obtain ⟨_, total, fee, feeWithChange, hout, hstopped⟩ | ⟨_, total, htotal, h⟩ := selectFrom_cons htotal h
    · cases hout
      exact ⟨⟨[utxo], rest, rfl, by simp, rfl⟩, total, fee, feeWithChange, hstopped⟩
    · obtain ⟨⟨taken, left, rfl, _, rfl⟩, hstopped⟩ := ih htotal h
      exact ⟨⟨utxo :: taken, left, rfl, by simp, by simp⟩, hstopped⟩

/-- **Run.** The sources run out when every front of them is short. -/
theorem short_of_selectFrom {rest selected sel : List SpendSource} {total : UInt64}
    (htotal : total.toNat = worth selected)
    (h : r.selectFrom lib c selected total rest = .ok (sel, none)) {n : Nat} (hn : n < rest.length) :
    Short r c (selected ++ rest.take (n + 1)) := by
  induction rest generalizing selected total n with
  | nil => simp at hn
  | cons utxo rest ih =>
    obtain ⟨_, _, _, _, hout, _⟩ | ⟨hshort, total, htotal, h⟩ := selectFrom_cons htotal h
    · cases hout
    · cases n with
      | zero => simpa using hshort
      | succ n => simpa using ih htotal h (by simpa using hn)

theorem selectFrom_error {rest selected : List SpendSource} {total : UInt64} {e : ChainError}
    (h : r.selectFrom lib c selected total rest = .error e) : e.kind = .invalidTransaction := by
  induction rest generalizing selected total with
  | nil => cases h
  | cons utxo rest ih =>
    simp only [BuildRequest.selectFrom, bind_error, okOr_error] at h
    obtain ⟨_, rfl⟩ | ⟨_, _, hfee | ⟨_, _, ⟨_, rfl⟩ | ⟨_, _, h⟩⟩⟩ := h
    · rfl
    · exact predictedFee_error hfee
    · rfl
    · split_ifs at h
      · exact ih h
      · obtain hfee | ⟨_, _, ⟨⟩⟩ := bind_error.mp h
        exact predictedFee_error hfee

/-- Nothing overflows, and the sources and the recipients with their fee are sums of words. -/
structure NoOverflow (r : BuildRequest) (recipientScripts : List Script) : Prop where
  sources : worth r.available < 2 ^ 64
  fee : FeeFits r.available recipientScripts r.feeRate
  required : paid r.recipients + exactFee r.available recipientScripts r.feeRate < 2 ^ 64

/-- Without overflows, the loop runs to the end of sources that are always short. -/
theorem selectFrom_of_short {rest selected : List SpendSource} {total : UInt64}
    (htotal : total.toNat = worth selected) (hsum : worth (selected ++ rest) < 2 ^ 64)
    (hfee : ∀ n < rest.length, FeeFits (selected ++ rest.take (n + 1)) c.recipientScripts r.feeRate ∧
      c.recipientTotal.toNat + exactFee (selected ++ rest.take (n + 1)) c.recipientScripts r.feeRate < 2 ^ 64)
    (hshort : ∀ n < rest.length, Short r c (selected ++ rest.take (n + 1))) :
    r.selectFrom lib c selected total rest = .ok (selected ++ rest, none) := by
  induction rest generalizing selected total with
  | nil => simp [BuildRequest.selectFrom]
  | cons utxo rest ih =>
    have hfirst := hfee 0 (by simp)
    have hshort₀ := hshort 0 (by simp)
    simp only [Nat.zero_add, List.take_succ_cons, List.take_zero] at hfirst hshort₀
    obtain ⟨total', htotal'⟩ := Word.exists_toNat (show worth (selected ++ [utxo]) < 2 ^ 64 by
      simp [worth] at hsum ⊢
      omega)
    obtain ⟨fee, hpredicted, hfee_eq⟩ := exists_predictedFee hfirst.1
    obtain ⟨required, hrequired⟩ := Word.exists_toNat hfirst.2
    have hadd : Word.checkedAdd total utxo.value = some total' := by
      rw [Word.checkedAdd_some, htotal', htotal]
      simp [worth]
    have hneed : Word.checkedAdd c.recipientTotal fee = some required := by
      rw [Word.checkedAdd_some, hrequired, hfee_eq]
    have hlt : total' < required := by
      rw [UInt64.lt_iff_toNat_lt, htotal', hrequired]
      exact hshort₀
    have hrest : r.selectFrom lib c (selected ++ [utxo]) total' rest = .ok (selected ++ [utxo] ++ rest, none) := by
      apply ih htotal' (by simpa using hsum)
      · intro n hn
        simpa using hfee (n + 1) (by simpa using hn)
      · intro n hn
        simpa using hshort (n + 1) (by simpa using hn)
    rw [BuildRequest.selectFrom, hadd]
    simp only [okOr, bind, Except.bind, hpredicted, hneed, if_pos hlt]
    rw [hrest, List.append_assoc]
    rfl

/-! ## Soundness -/

/-- The recipients, or in a drain the one recipient with what it gets. -/
def Payees (r : BuildRequest) (payees : List Output) : Prop :=
  if r.drainWallet then ∃ recipient value, r.recipients = [recipient] ∧ payees = [{ recipient with value := value }]
  else payees = r.recipients

/-- A transaction that pays a request, with the change that it returns and the fee predicted for
exactly its inputs and outputs. -/
structure Pays (lib : Library) (r : BuildRequest) (t : UnsignedTransaction) (payees : List Output)
    (change : Option UInt64) (changeScript : Script) (scripts : List Script) (fee : UInt64) : Prop where
  subperm : t.sources.Subperm r.available
  distinct : (t.sources.map (·.outpoint)).Nodup
  noOverflow : worth t.sources < 2 ^ 64
  payees_eq : Payees r payees
  outputs_eq : t.outputs = payees ++ change.toList.map (⟨r.changeAddress, ·⟩)
  changeScript_eq : lib.scriptPubkeyForNetwork r.changeAddress = .ok changeScript
  notDust : ∀ value ∈ change, lib.minimalNonDust changeScript ≤ value
  scripts_eq : t.outputs.mapM (fun o => lib.scriptPubkeyForNetwork o.address) = .ok scripts
  fee_eq : predictedFee t.sources scripts r.feeRate = .ok fee
  covered : paid t.outputs + fee.toNat ≤ worth t.sources
  exactly : change.isSome ∨ r.drainWallet → worth t.sources - paid t.outputs = fee.toNat
  /-- What is given away stays below the dust limit and the cost of an output for the change. -/
  givesLittle : change = none → r.drainWallet = false → ∃ feeWithChange,
    predictedFee t.sources (scripts ++ [changeScript]) r.feeRate = .ok feeWithChange ∧
      fee ≤ feeWithChange ∧ worth t.sources - paid t.outputs - fee.toNat <
        (lib.minimalNonDust changeScript).toNat + (feeWithChange.toNat - fee.toNat)

theorem changeOf_some {total fee value : UInt64} (h : BuildRequest.changeOf lib c total fee = some value) :
    total.toNat = c.recipientTotal.toNat + fee.toNat + value.toNat ∧
      lib.minimalNonDust c.changeScript ≤ value := by
  rw [BuildRequest.changeOf, Option.filter_eq_some_iff, Option.bind_eq_some_iff] at h
  obtain ⟨⟨rest, hrest, hvalue⟩, hdust⟩ := h
  have hrest := Word.checkedSub_some.mp hrest
  have hvalue := Word.checkedSub_some.mp hvalue
  exact ⟨by omega, by simpa using hdust⟩

theorem changeOf_none {total fee : UInt64} (hcovered : c.recipientTotal.toNat ≤ total.toNat)
    (h : BuildRequest.changeOf lib c total fee = none) :
    total.toNat < c.recipientTotal.toNat + fee.toNat + (lib.minimalNonDust c.changeScript).toNat := by
  by_contra hle
  have htotal := total.toNat_lt
  obtain ⟨rest, hrest⟩ := Word.exists_toNat (show total.toNat - c.recipientTotal.toNat < 2 ^ 64 by omega)
  obtain ⟨value, hvalue⟩ := Word.exists_toNat (show rest.toNat - fee.toNat < 2 ^ 64 by omega)
  have hrest_eq : Word.checkedSub total c.recipientTotal = some rest := Word.checkedSub_some.mpr (by omega)
  have hvalue_eq : Word.checkedSub rest fee = some value := Word.checkedSub_some.mpr (by omega)
  have hworth : lib.minimalNonDust c.changeScript ≤ value := by
    rw [UInt64.le_iff_toNat_le]
    omega
  rw [BuildRequest.changeOf, hrest_eq, Option.bind_some, hvalue_eq] at h
  simp [Option.filter, hworth] at h

variable {recipientScripts : List Script} {changeScript : Script} {t : UnsignedTransaction}

theorem drain_pays (hvalid : r.Valid lib recipientScripts changeScript) (hdrain : r.drainWallet = true)
    (h : r.drain lib recipientScripts = .ok t) :
    ∃ payees change scripts fee, Pays lib r t payees change changeScript scripts fee := by
  unfold BuildRequest.drain at h
  split at h
  case h_2 => cases h
  case h_1 recipient script hrecipients =>
    simp only [bind_ok, okOr_ok, ensure_ok, pure_ok] at h
    obtain ⟨total, htotal, fee, hfee, value, hvalue, _, hdust, rfl⟩ := h
    have htotal := Word.checkedSum_some.mp htotal
    have hvalue := Word.checkedSub_some.mp hvalue
    have hperm := byOutpoint_perm r.available
    have hscripts := mapM_ok.mp (scripts_of_checked hvalid.scripts)
    rw [hrecipients, List.forall₂_cons] at hscripts
    have hworth : worth (byOutpoint r.available) = fee.toNat + value.toNat := by
      rw [← hvalue, htotal]
      rfl
    have hpaid : paid [{ recipient with value := value }] = value.toNat := by simp [paid]
    refine ⟨[{ recipient with value := value }], none, [script], fee, ?_⟩
    constructor
    case subperm => simpa using hperm.subperm
    case distinct => simpa using (hperm.map _).nodup_iff.mpr hvalid.distinct
    case noOverflow =>
      rw [sources_fromSelected, hworth, ← hvalue]
      exact total.toNat_lt
    case payees_eq =>
      rw [Payees, if_pos hdrain]
      exact ⟨recipient, value, hrecipients, rfl⟩
    case outputs_eq => simp
    case changeScript_eq => exact hvalid.change
    case notDust => simp
    case scripts_eq => exact mapM_ok.mpr (.cons hscripts.1 .nil)
    case fee_eq => simpa using hfee
    case covered =>
      rw [sources_fromSelected, hworth, outputs_fromSelected, hpaid, Nat.add_comm]
    case exactly =>
      intro _
      rw [sources_fromSelected, hworth, outputs_fromSelected, hpaid, Nat.add_sub_cancel]
    case givesLittle =>
      intro _ hfalse
      rw [hdrain] at hfalse
      cases hfalse

theorem select_pays (hvalid : r.Valid lib recipientScripts changeScript) (hdrain : r.drainWallet = false)
    (h : r.select lib recipientScripts changeScript = .ok t) :
    ∃ payees change scripts fee, Pays lib r t payees change changeScript scripts fee := by
  simp only [BuildRequest.select, bind_ok, okOr_ok, pure_ok] at h
  obtain ⟨recipientTotal, hrecipients, ⟨sel, _⟩, hloop, outputs, rfl, rfl⟩ := h
  have hpaid : recipientTotal.toNat = paid r.recipients := Word.checkedSum_some.mp hrecipients
  obtain ⟨⟨_, left, hsorted, hne, rfl⟩, total, fee, feeWithChange, hstopped⟩ := selectFrom_some rfl hloop
  obtain ⟨htotal, hfee, hcovered, hwith, houtputs⟩ := hstopped
  simp only at hne hsorted htotal hfee hcovered hwith houtputs ⊢
  -- The chosen sources are the front of the sorted ones.
  have hsub : sel.Subperm r.available := by
    have hsublist : sel.Sublist (byValue r.available) := hsorted ▸ List.sublist_append_left sel left
    exact hsublist.subperm.trans (byValue_perm _).subperm
  have hdistinct : (sel.map (·.outpoint)).Nodup := by
    obtain ⟨front, hperm, hsublist⟩ := hsub
    exact (hperm.map _).nodup_iff.mp (hvalid.distinct.sublist (hsublist.map _))
  have hword : worth sel < 2 ^ 64 := htotal ▸ total.toNat_lt
  have hscripts := mapM_ok.mp (scripts_of_checked hvalid.scripts)
  have hpayees : Payees r r.recipients := by rw [Payees, hdrain]; rfl
  have hmono : fee ≤ feeWithChange := by
    rw [UInt64.le_iff_toNat_le, (predictedFee_ok.mp hfee).2, (predictedFee_ok.mp hwith).2]
    exact exactFee_mono (signedWeight_scripts hne (List.sublist_append_left _ _))
  -- Without change the fee takes what is left. With change the outputs are exact.
  cases hchange : BuildRequest.changeOf lib ⟨recipientScripts, changeScript, recipientTotal⟩ total feeWithChange with
  | none =>
    have hlittle := changeOf_none (by simp only; omega) hchange
    simp only [hchange, Option.toList_none, List.map_nil, List.append_nil] at houtputs
    subst houtputs
    refine ⟨r.recipients, none, recipientScripts, fee, ?_⟩
    constructor
    case subperm => simpa using hsub
    case distinct => simpa using hdistinct
    case noOverflow => simpa using hword
    case payees_eq => exact hpayees
    case outputs_eq => simp
    case changeScript_eq => exact hvalid.change
    case notDust => simp
    case scripts_eq => exact mapM_ok.mpr hscripts
    case fee_eq => simpa using hfee
    case covered =>
      rw [sources_fromSelected, outputs_fromSelected]
      omega
    case exactly => simp [hdrain]
    case givesLittle =>
      intro _ _
      refine ⟨feeWithChange, by simpa using hwith, hmono, ?_⟩
      rw [UInt64.le_iff_toNat_le] at hmono
      simp only [sources_fromSelected, outputs_fromSelected] at hlittle ⊢
      omega
  | some value =>
    obtain ⟨hvalue, hdust⟩ := changeOf_some hchange
    simp only [hchange, Option.toList_some, List.map_cons, List.map_nil] at houtputs
    subst houtputs
    have hall : paid (r.recipients ++ [⟨r.changeAddress, value⟩]) = paid r.recipients + value.toNat := by
      simp [paid]
    refine ⟨r.recipients, some value, recipientScripts ++ [changeScript], feeWithChange, ?_⟩
    constructor
    case subperm => simpa using hsub
    case distinct => simpa using hdistinct
    case noOverflow => simpa using hword
    case payees_eq => exact hpayees
    case outputs_eq => simp
    case changeScript_eq => exact hvalid.change
    case notDust => simpa using hdust
    case scripts_eq => exact mapM_ok.mpr (List.rel_append hscripts (.cons hvalid.change .nil))
    case fee_eq => simpa using hwith
    case covered =>
      rw [sources_fromSelected, outputs_fromSelected, hall]
      simp only at hvalue
      omega
    case exactly =>
      intro _
      rw [sources_fromSelected, outputs_fromSelected, hall]
      simp only at hvalue
      omega
    case givesLittle => simp

/-! ## Completeness -/

theorem exactFee_of_length {inputs inputs' : List SpendSource} {scripts : List Script} {rate : FeeRate}
    {w : UInt64} (h : ∀ s ∈ inputs, s.satisfactionWeight = w) (h' : ∀ s ∈ inputs', s.satisfactionWeight = w)
    (hlength : inputs.length = inputs'.length) : exactFee inputs scripts rate = exactFee inputs' scripts rate := by
  have heq : ∀ {l : List SpendSource}, (∀ s ∈ l, s.satisfactionWeight = w) →
      l.map (·.satisfactionWeight) = List.replicate l.length w := by
    intro l hl
    rw [List.map_eq_replicate_iff]
    exact hl
  rw [exactFee, exactFee, signedWeight, signedWeight, heq h, heq h', hlength]

theorem feeFits_take {scripts : List Script} {n : Nat} (hfits : FeeFits r.available scripts r.feeRate)
    (hn : n < (byValue r.available).length) :
    FeeFits ((byValue r.available).take (n + 1)) scripts r.feeRate ∧
      exactFee ((byValue r.available).take (n + 1)) scripts r.feeRate ≤ exactFee r.available scripts r.feeRate := by
  have hsub : ((byValue r.available).take (n + 1)).Subperm r.available :=
    (List.take_sublist _ _).subperm.trans (byValue_perm _).subperm
  have hle : signedWeight ((byValue r.available).take (n + 1)) scripts ≤ signedWeight r.available scripts := by
    apply signedWeight_mono
    · intro hnil
      rcases List.take_eq_nil_iff.mp hnil with hzero | hnil
      · omega
      · rw [hnil] at hn
        exact Nat.not_lt_zero _ hn
    · exact hsub.length_le
    · obtain ⟨front, hperm, hsublist⟩ := hsub
      exact Word.total_subperm ⟨_, hperm.map _, hsublist.map _⟩
    · exact List.Sublist.refl _
  exact ⟨hfits.mono hle, exactFee_mono hle⟩

/-- A choice of sources that pays the recipients and its own fee. -/
def Payable (r : BuildRequest) (recipientScripts : List Script) : Prop :=
  ∃ sources fee, sources ≠ [] ∧ sources.Subperm r.available ∧
    predictedFee sources recipientScripts r.feeRate = .ok fee ∧ paid r.recipients + fee.toNat ≤ worth sources

theorem not_payable_of_short {w : UInt64} (hweight : ∀ s ∈ r.available, s.satisfactionWeight = w)
    (hpaid : c.recipientTotal.toNat = paid r.recipients)
    (hshort : ∀ n < (byValue r.available).length, Short r c ((byValue r.available).take (n + 1))) :
    ¬ Payable r c.recipientScripts := by
  rintro ⟨sources, fee, hne, hsub, hfee, hcovered⟩
  have hsorted : sources.Subperm (byValue r.available) := hsub.trans (byValue_perm _).symm.subperm
  have hpos : 0 < sources.length := List.length_pos_iff.mpr hne
  have hlength : sources.length ≤ (byValue r.available).length := hsorted.length_le
  have hshort := hshort (sources.length - 1) (by omega)
  rw [Nat.sub_add_cancel hpos] at hshort
  have hworth : worth sources ≤ worth ((byValue r.available).take sources.length) := by
    obtain ⟨front, hperm, hsublist⟩ := hsorted
    have hvalues := Word.total_le_take (byValue_descending r.available) ⟨_, hperm.map _, hsublist.map _⟩
    rwa [List.length_map, ← List.map_take] at hvalues
  have hsame : exactFee sources c.recipientScripts r.feeRate =
      exactFee ((byValue r.available).take sources.length) c.recipientScripts r.feeRate := by
    refine exactFee_of_length (fun s hs => hweight s (hsub.subset hs)) ?_ ?_
    · intro s hs
      exact hweight s ((byValue_perm _).mem_iff.mp (List.mem_of_mem_take hs))
    · rw [List.length_take, Nat.min_eq_left hlength]
  rw [Short, ← hsame, hpaid, ← (predictedFee_ok.mp hfee).2] at hshort
  omega

theorem short_of_not_payable (hpaid : c.recipientTotal.toNat = paid r.recipients)
    (hfits : FeeFits r.available c.recipientScripts r.feeRate) (h : ¬ Payable r c.recipientScripts) {n : Nat}
    (hn : n < (byValue r.available).length) : Short r c ((byValue r.available).take (n + 1)) := by
  obtain ⟨fee, hfee, heq⟩ := exists_predictedFee (feeFits_take hfits hn).1
  rw [Short, hpaid, ← heq]
  by_contra hcovered
  refine h ⟨_, fee, ?_, (List.take_sublist _ _).subperm.trans (byValue_perm _).subperm, hfee, by omega⟩
  intro hnil
  rcases List.take_eq_nil_iff.mp hnil with hzero | hnil
  · omega
  · rw [hnil] at hn
    exact Nat.not_lt_zero _ hn

theorem build_insufficient (hvalid : r.Valid lib recipientScripts changeScript) (hdrain : r.drainWallet = false)
    {recipientTotal : UInt64} (hrecipients : Word.checkedSum (r.recipients.map (·.value)) = some recipientTotal) :
    (∃ e, r.build lib = .error e ∧ e.kind = .insufficientFunds) ↔
      r.available = [] ∨ ∃ sel, r.selectFrom lib ⟨recipientScripts, changeScript, recipientTotal⟩ [] 0
        (byValue r.available) = .ok (sel, none) := by
  by_cases hne : r.available = []
  · simp [BuildRequest.build, BuildRequest.validate, hne, ensure, bind, Except.bind, ChainError.insufficientFunds]
  · have hvalidate := validate_ok.mpr ⟨hne, hvalid⟩
    have hbuild : r.build lib = r.select lib recipientScripts changeScript := by
      simp [BuildRequest.build, hvalidate, bind, Except.bind, hdrain]
    rw [hbuild, or_iff_right hne]
    simp only [BuildRequest.select, hrecipients, okOr, bind, Except.bind]
    cases hloop : r.selectFrom lib ⟨recipientScripts, changeScript, recipientTotal⟩ [] 0 (byValue r.available) with
    | error e =>
      have hkind := selectFrom_error hloop
      simp [hkind]
    | ok out =>
      obtain ⟨sel, outputs⟩ := out
      cases outputs <;> simp [ChainError.insufficientFunds, pure, Except.pure]

/-- **Completeness.** Funds are missing exactly when no choice of sources pays. -/
theorem insufficient_iff {w : UInt64} (hvalid : r.Valid lib recipientScripts changeScript)
    (hdrain : r.drainWallet = false) (hweight : ∀ s ∈ r.available, s.satisfactionWeight = w)
    (hfits : NoOverflow r recipientScripts) :
    (∃ e, r.build lib = .error e ∧ e.kind = .insufficientFunds) ↔ ¬ Payable r recipientScripts := by
  have hlt : paid r.recipients < 2 ^ 64 := Nat.lt_of_le_of_lt (Nat.le_add_right _ _) hfits.required
  obtain ⟨recipientTotal, hpaid⟩ := Word.exists_toNat hlt
  have hrecipients : Word.checkedSum (r.recipients.map (·.value)) = some recipientTotal :=
    Word.checkedSum_some.mpr hpaid
  rw [build_insufficient hvalid hdrain hrecipients]
  generalize hc : (⟨recipientScripts, changeScript, recipientTotal⟩ : BuildRequest.Selection) = c
  obtain rfl : c.recipientScripts = recipientScripts := by rw [← hc]
  obtain rfl : c.recipientTotal = recipientTotal := by rw [← hc]
  constructor
  · rintro (hnil | ⟨sel, hloop⟩)
    · rintro ⟨sources, _, hne, hsub, _⟩
      rw [hnil, List.subperm_nil] at hsub
      exact hne hsub
    · apply not_payable_of_short hweight hpaid
      intro n hn
      exact short_of_selectFrom rfl hloop hn
  · intro hnone
    refine .inr ⟨_, selectFrom_of_short rfl ?_ ?_ ?_⟩
    · rw [List.nil_append, worth_perm (byValue_perm _)]
      exact hfits.sources
    · intro n hn
      obtain ⟨hfee, hle⟩ := feeFits_take hfits.fee hn
      have hrequired := hfits.required
      rw [List.nil_append, hpaid]
      exact ⟨hfee, by omega⟩
    · intro n hn
      exact short_of_not_payable hpaid hfits.fee hnone hn

theorem build_pays (h : r.build lib = .ok t) :
    ∃ payees change changeScript scripts fee, Pays lib r t payees change changeScript scripts fee := by
  obtain ⟨⟨recipientScripts, changeScript⟩, hvalidate, h⟩ := bind_ok.mp h
  have hvalid := (validate_ok.mp hvalidate).2
  cases hdrain : r.drainWallet with
  | true =>
    rw [hdrain] at h
    obtain ⟨payees, change, scripts, fee, hpays⟩ := drain_pays hvalid hdrain h
    exact ⟨payees, change, changeScript, scripts, fee, hpays⟩
  | false =>
    rw [hdrain] at h
    obtain ⟨payees, change, scripts, fee, hpays⟩ := select_pays hvalid hdrain h
    exact ⟨payees, change, changeScript, scripts, fee, hpays⟩

/-- **Coin selection is sound and complete.** What is built pays the request from its own sources,
and with equally heavy sources funds are missing exactly when no choice of them can pay. -/
theorem coin_selection (lib : Library) (r : BuildRequest) :
    (∀ t, r.build lib = .ok t → ∃ payees change changeScript scripts fee,
      Pays lib r t payees change changeScript scripts fee) ∧
    ∀ recipientScripts changeScript w, r.Valid lib recipientScripts changeScript → r.drainWallet = false →
      (∀ s ∈ r.available, s.satisfactionWeight = w) → NoOverflow r recipientScripts →
      ((∃ e, r.build lib = .error e ∧ e.kind = .insufficientFunds) ↔
        ¬ ∃ sources fee, sources ≠ [] ∧ sources.Subperm r.available ∧
          predictedFee sources recipientScripts r.feeRate = .ok fee ∧
          paid r.recipients + fee.toNat ≤ worth sources) := by
  constructor
  · exact fun _ h => build_pays h
  · intro recipientScripts changeScript w hvalid hdrain hweight hfits
    exact insufficient_iff hvalid hdrain hweight hfits

def sampleCoins : List SpendSource := [sampleCoin 0 30000, sampleCoin 1 50000, sampleCoin 2 40000]

def sampleChoice (amount : UInt64) : BuildRequest :=
  ⟨sampleCoins, [⟨sampleAddress, amount⟩], sampleAddress, ⟨1000⟩, false⟩

theorem byValue_sampleCoins :
    byValue sampleCoins = [sampleCoin 1 50000, sampleCoin 2 40000, sampleCoin 0 30000] := by
  have h01 : ((sampleCoin 0 30000).compareValue (sampleCoin 1 50000)).isLE = false := by decide
  have h02 : ((sampleCoin 0 30000).compareValue (sampleCoin 2 40000)).isLE = false := by decide
  have h12 : ((sampleCoin 1 50000).compareValue (sampleCoin 2 40000)).isLE = true := by decide
  simp [byValue, sampleCoins, List.mergeSort, List.MergeSort.Internal.splitInTwo, h01, h02, h12]

/-- The two largest sources pay with change, and all three cannot pay one satoshi too much. -/
theorem coin_selection_sample :
    (∃ payees change changeScript scripts fee, Pays sampleLibrary (sampleChoice 70000)
      (.fromSelected [sampleCoin 1 50000, sampleCoin 2 40000] [⟨sampleAddress, 70000⟩, ⟨sampleAddress, 19791⟩])
      payees change changeScript scripts fee) ∧
    ¬ ∃ sources fee, sources ≠ [] ∧ sources.Subperm sampleCoins ∧
      predictedFee sources [sampleScript 7] ⟨1000⟩ = .ok fee ∧
      paid [⟨sampleAddress, 119754⟩] + fee.toNat ≤ worth sources := by
  constructor
  · apply (coin_selection sampleLibrary (sampleChoice 70000)).1
    simp only [BuildRequest.build, BuildRequest.select, sampleChoice, byValue_sampleCoins]
    decide
  · refine ((coin_selection sampleLibrary (sampleChoice 119754)).2 _ (sampleScript 7) 109 ?_ rfl ?_ ?_).mp
      ⟨.insufficientFunds "insufficient Bitcoin funds for 119754 satoshis plus network fee", ?_, rfl⟩
    · exact ⟨by decide, by decide, by decide, by decide, by decide, by decide +kernel⟩
    · decide
    · exact ⟨by decide, ⟨by decide, by decide⟩, by decide⟩
    · simp only [BuildRequest.build, BuildRequest.select, sampleChoice, byValue_sampleCoins]
      decide

end PaymentSdk.Bitcoin
