import PaymentSdk.Lib.Window
import PaymentSdk.Solana.Slots

/-!
# What the Solana source acquires

The finalized chain is fixed, and every request is answered with it or fails. The first
available slot may be anything, at each read anew. A log keeps what an attempt has met, so
that a failure can be traced to its cause.
-/

open Interaction Sorted

namespace PaymentSdk.Solana.Slots

/-! ## A finalized chain -/

def Block.slot (b : Block) : Nat := b.reference.position.toNat

/-- The next block of a chain, over any gap of slots. -/
structure Connects (previous block : Block) : Prop where
  slot : previous.slot < block.slot
  height : block.reference.height.toNat = previous.reference.height.toNat + 1
  parent : block.reference.parent = some ⟨previous.reference.position, previous.reference.hash⟩

theorem requireConnection_ok {previous block : Block} (h : Connects previous block) :
    block.requireConnection previous = .ok () := by
  obtain ⟨hslot, hheight, hparent⟩ := h
  have hbound := block.reference.height.toNat_lt
  have hsucc : previous.reference.height.checkedSuccessor = some block.reference.height := by
    have hlt : previous.reference.height.val.toNat + 1 < 2 ^ 64 := by
      simp only [BlockHeight.toNat] at hheight hbound
      omega
    simp only [BlockHeight.checkedSuccessor, checkedSuccessor, hlt, if_true, Option.map_some,
      Option.some.injEq]
    apply BlockHeight.toNat_inj
    simp only [BlockHeight.toNat, UInt64.toNat_add, UInt64.reduceToNat] at hheight ⊢
    omega
  have hposition : ¬ block.reference.position ≤ previous.reference.position :=
    fun hle => absurd hslot (Nat.not_lt.mpr hle)
  simp [Block.requireConnection, hsucc, hposition, hparent]

/-- The produced blocks by slot, each as its raw result decodes. -/
structure FinalizedChain (codec : Codec) where
  blocks : List Block
  parsed : ∀ b ∈ blocks, Block.parse codec b.reference.position.val b.raw = .ok b
  connected : blocks.IsChain Connects

namespace FinalizedChain

variable {codec : Codec} (chain : FinalizedChain codec) (finalized : UInt64)

/-- The produced blocks of an inclusive slot range. -/
def between (start last : Nat) : List Block := window Block.slot start (last + 1) chain.blocks

def tip : Option Block := (chain.between 0 finalized.toNat).getLast?

def rawAt (slot : UInt64) : Option (List UInt8) :=
  (chain.blocks.find? fun b => decide (b.reference.position.val = slot)).map (·.raw)

theorem ascending : chain.blocks.Pairwise fun x y => x.slot < y.slot := by
  have : IsTrans Block fun x y => x.slot < y.slot := ⟨fun _ _ _ => Nat.lt_trans⟩
  exact List.isChain_iff_pairwise.mp (chain.connected.imp fun _ _ h => h.slot)

theorem between_connected {start last : Nat} (h : start ≤ last + 1) :
    (chain.between start last).IsChain Connects :=
  chain.connected.infix (window_stretch chain.ascending h)

theorem rawAt_eq {b : Block} (hb : b ∈ chain.blocks) :
    chain.rawAt b.reference.position.val = some b.raw := by
  rw [rawAt]
  cases hfind : chain.blocks.find? fun x => decide (x.reference.position.val = b.reference.position.val) with
  | none => simpa using List.find?_eq_none.mp hfind b hb
  | some x =>
    have hslot : x.reference.position.val = b.reference.position.val := by
      simpa using List.find?_some hfind
    have heq : x = b := eq_of_key_eq chain.ascending (List.mem_of_find?_eq_some hfind) hb
      (congrArg UInt64.toNat hslot)
    rw [heq, Option.map_some]

end FinalizedChain

/-! ## What an attempt meets -/

/-- The first-available slots that were read, the number of enumerations asked for, and
whether the deadline has passed or a request has failed. -/
structure Log where
  readings : List Nat := []
  enumerations : Nat := 0
  late : Bool := false
  faulted : Bool := false

variable {α β : Type}

def Log.hear (l : Log) : Except Fault α → Log
  | .ok _ => l
  | .error .elapsed => { l with late := true }
  | .error (.failed ..) => { l with faulted := true }

def Log.read (l : Log) : Except Fault UInt64 → Log
  | .ok slot => { l with readings := slot.toNat :: l.readings }
  | fault => l.hear fault

variable {codec : Codec}

def FinalizedChain.Answers (chain : FinalizedChain codec) (finalized : UInt64) :
    (op : Op) → Log → op.Ans → Log → Prop
  | .now, l, passed, l' => l' = { l with late := l.late || passed }
  | .slot, l, r, l' => l' = l.hear r ∧ ∀ v, r = .ok v → v = finalized
  | .firstAvailable, l, r, l' => l' = l.read r
  | .getBlocks start last _, l, r, l' =>
    l' = { l.hear r with enumerations := l.enumerations + 1 } ∧
      ∀ v, r = .ok v → v = (chain.between start last).map (·.reference.position.val)
  | .getBlock slot, l, r, l' => l' = l.hear r ∧ ∀ v, r = .ok v → v = chain.rawAt slot

/-- Why an attempt may fail: a first-available slot that counts as pruning, the budget, the
deadline, or a request. -/
def Excused (pruning : Nat → Prop) (e : SourceError) (l : Log) : Prop :=
  (∃ f ∈ l.readings, pruning f) ∨ (e = budgetError ∧ l.enumerations = maxEnumerations) ∨
    (e = deadlineError ∧ l.late = true) ∨ l.faulted = true

/-- The attempt keeps to the budget, never overflows, ends in `good`, or fails with an
excuse. -/
def Acquires (chain : FinalizedChain codec) (finalized : UInt64) (pruning : Nat → Prop)
    (good : α → Log → Prop) (p : Attempt α) (l : Log) : Prop :=
  Prog.Always (chain.Answers finalized) (fun l => l.enumerations ≤ maxEnumerations)
    (fun r l => match r with
      | .ok a => good a l
      | .error (.failed e) => Excused pruning e l
      | .error _ => False) p l

section Rules

variable {chain : FinalizedChain codec} {finalized : UInt64} {pruning : Nat → Prop} {l : Log}
  {good : α → Log → Prop}

theorem acquires_pure {a : α} (hl : l.enumerations ≤ maxEnumerations) (h : good a l) :
    Acquires chain finalized pruning good (pure a) l := ⟨hl, h⟩

theorem acquires_throw {e : SourceError} (hl : l.enumerations ≤ maxEnumerations)
    (h : Excused pruning e l) : Acquires chain finalized pruning good (throw (.failed e)) l := ⟨hl, h⟩

theorem acquires_mono {good' : α → Log → Prop} {p : Attempt α} (h : Acquires chain finalized pruning good p l)
    (hgood : ∀ a l, l.enumerations ≤ maxEnumerations → good a l → good' a l) :
    Acquires chain finalized pruning good' p l := by
  refine Prog.always_mono h (fun _ ht => ht) fun r t ht hr => ?_
  cases r with
  | ok a => exact hgood a t ht hr
  | error halt => cases halt <;> exact hr

theorem acquires_bind {p : Attempt β} {f : β → Attempt α}
    (h : Acquires chain finalized pruning (fun b l => Acquires chain finalized pruning good (f b) l) p l) :
    Acquires chain finalized pruning good (p >>= f) l := by
  refine Prog.always_except_bind (Prog.always_mono h (fun _ ht => ht) fun r t _ hr => ?_)
  cases r with
  | ok b => exact hr
  | error halt => cases halt <;> exact hr

theorem acquires_minus {a b : Nat} {good : Nat → Log → Prop} (hl : l.enumerations ≤ maxEnumerations)
    (hab : b ≤ a) (h : good (a - b) l) : Acquires chain finalized pruning good (minus a b) l := by
  rw [minus, if_neg (Nat.not_lt.mpr hab)]
  exact acquires_pure hl h

theorem acquires_within {r : Except Fault α} (hl : l.enumerations ≤ maxEnumerations)
    (h : ∀ v, r = .ok v → good v l) : Acquires chain finalized pruning good (within r) (l.hear r) := by
  cases r with
  | ok v => exact acquires_pure hl (h v rfl)
  | error fault =>
    cases fault with
    | elapsed => exact acquires_throw hl (.inr (.inr (.inl ⟨rfl, rfl⟩)))
    | failed kind message => exact acquires_throw hl (.inr (.inr (.inr rfl)))

theorem acquires_finalizedSlot {good : UInt64 → Log → Prop} (hl : l.enumerations ≤ maxEnumerations)
    (h : good finalized l) : Acquires chain finalized pruning good finalizedSlot l := by
  refine ⟨hl, ?_⟩
  rintro r _ ⟨rfl, hv⟩
  exact acquires_within hl fun v hr => hv v hr ▸ h

theorem acquires_firstAvailable {good : UInt64 → Log → Prop} (hl : l.enumerations ≤ maxEnumerations)
    (h : ∀ slot, good slot { l with readings := slot.toNat :: l.readings }) :
    Acquires chain finalized pruning good firstAvailable l := by
  refine ⟨hl, ?_⟩
  rintro r _ rfl
  cases r with
  | ok slot => exact acquires_pure hl (h slot)
  | error fault => exact acquires_within hl fun _ hv => nomatch hv

theorem acquires_ensureBeforeDeadline {good : Unit → Log → Prop} (hl : l.enumerations ≤ maxEnumerations)
    (h : good () l) : Acquires chain finalized pruning good ensureBeforeDeadline l := by
  refine ⟨hl, ?_⟩
  rintro passed _ rfl
  cases passed with
  | false =>
    have hsame : { l with late := l.late || false } = l := by simp
    rw [hsame]
    exact acquires_pure hl h
  | true => exact acquires_throw hl (.inr (.inr (.inl ⟨rfl, by simp⟩)))

/-- Within the span that the client accepts, an enumeration is the produced slots. -/
theorem acquires_enumerate {start last floor : Nat} {good : List UInt64 × Nat → Log → Prop}
    (hl : l.enumerations ≤ maxEnumerations) (horder : start ≤ last) (hspan : last - start < maxEnumerationSpan)
    (h : l.enumerations < maxEnumerations →
      good ((chain.between start last).map (·.reference.position.val), l.enumerations + 1)
        { l with enumerations := l.enumerations + 1 }) :
    Acquires chain finalized pruning good (enumerate l.enumerations start last floor) l := by
  apply acquires_bind
  apply acquires_ensureBeforeDeadline hl
  by_cases hbudget : maxEnumerations ≤ l.enumerations
  · rw [if_pos hbudget]
    exact acquires_throw hl (.inr (.inl ⟨rfl, Nat.le_antisymm hl hbudget⟩))
  · rw [if_neg hbudget]
    apply acquires_bind
    have hrange : ¬ (last < start ∨ 2 ^ 64 ≤ last - start + 1) := by
      simp only [maxEnumerationSpan] at hspan
      omega
    rw [finalizedBlocks, if_neg hrange, if_neg (by omega)]
    refine ⟨hl, ?_⟩
    rintro r _ ⟨rfl, hv⟩
    have hnext : l.enumerations + 1 ≤ maxEnumerations := by omega
    cases r with
    | error fault =>
      have hfault {good : List UInt64 → Log → Prop} : Acquires chain finalized pruning good
          (within (.error fault))
          (Log.hear { l with enumerations := l.enumerations + 1 } (.error fault : Except Fault (List UInt64))) :=
        acquires_within hnext fun _ h => nomatch h
      cases fault <;> exact hfault
    | ok slots =>
      obtain rfl := hv slots rfl
      have hordered : wellOrdered start last ((chain.between start last).map (·.reference.position.val)) := by
        constructor
        · intro slot hslot
          obtain ⟨b, hb, rfl⟩ := List.mem_map.mp hslot
          obtain ⟨-, hlow, hhigh⟩ := mem_window.mp hb
          exact ⟨hlow, Nat.le_of_lt_succ hhigh⟩
        · rw [List.isChain_map]
          exact (chain.between_connected (by omega)).imp fun _ _ hc => hc.slot
      simp only [if_pos hordered]
      exact acquires_pure hnext (acquires_pure hnext (h (Nat.not_le.mp hbudget)))

theorem acquires_requiredBlock {b : Block} {good : Block → Log → Prop}
    (hl : l.enumerations ≤ maxEnumerations) (hb : b ∈ chain.blocks) (h : good b l) :
    Acquires chain finalized pruning good (requiredBlock codec b.reference.position.val) l := by
  apply acquires_bind
  refine ⟨hl, ?_⟩
  rintro r _ ⟨rfl, hv⟩
  refine acquires_within hl fun v hr => ?_
  rw [hv v hr, chain.rawAt_eq hb]
  simp only [chain.parsed b hb]
  exact acquires_pure hl h

theorem acquires_extendBlocks {bs acc : List Block} {good : List Block → Log → Prop}
    (hl : l.enumerations ≤ maxEnumerations) (hbs : ∀ b ∈ bs, b ∈ chain.blocks)
    (hchain : (acc ++ bs).IsChain Connects) (h : good (acc ++ bs) l) :
    Acquires chain finalized pruning good (extendBlocks codec (bs.map (·.reference.position.val)) acc) l := by
  induction bs generalizing acc with
  | nil => exact acquires_pure hl (by simpa using h)
  | cons b rest ih =>
    rw [extendBlocks, List.map_cons, List.foldlM_cons]
    have hrest : Acquires chain finalized pruning good
        (extendBlocks codec (rest.map (·.reference.position.val)) (acc ++ [b])) l :=
      ih (fun x hx => hbs x (List.mem_cons_of_mem _ hx)) (by simpa using hchain) (by simpa using h)
    apply acquires_bind
    apply acquires_bind
    apply acquires_requiredBlock hl (hbs b List.mem_cons_self)
    cases hlast : acc.getLast? with
    | none => exact acquires_pure hl hrest
    | some previous =>
      have hconnects : Connects previous b := by
        obtain ⟨front, rfl⟩ := List.getLast?_eq_some_iff.mp hlast
        rw [List.append_assoc] at hchain
        exact (List.isChain_cons_cons.mp (List.isChain_append.mp hchain).2.1).1
      simp only [requireConnection_ok hconnects]
      exact acquires_pure hl hrest

end Rules

/-! ## The tip -/

section Attempts

variable {chain : FinalizedChain codec} {finalized : UInt64} {pruning : Nat → Prop} {l : Log}

/-- A slot above every produced block up to the finalized slot. -/
def FinalizedChain.AboveTip (chain : FinalizedChain codec) (finalized : UInt64) (slot : Nat) : Prop :=
  ∀ b ∈ chain.between 0 finalized.toNat, b.slot < slot

theorem tip_mem {b : Block} (h : chain.tip finalized = some b) :
    b ∈ chain.blocks ∧ b.slot ≤ finalized.toNat := by
  obtain ⟨hb, -, hle⟩ := mem_window.mp (List.mem_of_getLast? h)
  exact ⟨hb, Nat.le_of_lt_succ hle⟩

theorem aboveTip_of_lt {b : Block} (h : chain.tip finalized = some b) {slot : Nat} (hlt : b.slot < slot) :
    chain.AboveTip finalized slot := by
  intro x hx
  have hle : x.slot ≤ b.slot := key_le_getLast (chain.ascending.filter _) h hx
  omega

/-- Nothing is produced above `last`. The search goes down from there. -/
theorem acquires_searchTip (hpruning : ∀ f, chain.AboveTip finalized f → pruning f) {opening fuel last : Nat}
    (hl : l.enumerations ≤ maxEnumerations) (hfuel : maxEnumerations < fuel + l.enumerations)
    (hopening : opening ∈ l.readings) (hlow : opening ≤ last) (hhigh : last ≤ finalized.toNat)
    (habove : ∀ b ∈ chain.blocks, last < b.slot → finalized.toNat < b.slot) :
    Acquires chain finalized pruning
      (fun r l' => (∃ b, chain.tip finalized = some b ∧ r.1 = b.reference.position.val) ∧
        l'.readings = l.readings ∧ l'.enumerations = r.2)
      (searchTip opening finalized.toNat fuel l.enumerations last) l := by
  induction fuel generalizing l last with
  | zero => omega
  | succ fuel ih =>
    generalize hstart : max (last - (descendingWindow - 1)) opening = start
    have hsearch : start ≤ last := by omega
    rw [searchTip, hstart]
    apply acquires_bind
    refine acquires_enumerate hl hsearch (by simp only [maxEnumerationSpan, descendingWindow] at *; omega) ?_
    intro hbudget
    have hnext : l.enumerations + 1 ≤ maxEnumerations := hbudget
    simp only [List.getLast?_map]
    cases hlast : (chain.between start last).getLast? with
    | some b =>
      refine acquires_pure hnext ⟨⟨b, ?_, rfl⟩, rfl, rfl⟩
      -- The windows above were empty, so the last slot here is the tip.
      have hmem := List.mem_of_getLast? hlast
      obtain ⟨hb, -, hle⟩ := mem_window.mp hmem
      have hne : chain.between start finalized.toNat ≠ [] := by
        refine List.ne_nil_of_mem (a := b) (mem_window.mpr ⟨hb, ?_, by omega⟩)
        exact (mem_window.mp hmem).2.1
      have hsame : chain.between start finalized.toNat = chain.between start last := by
        rw [FinalizedChain.between, window_append chain.ascending (b := last + 1) (by omega) (by omega)]
        have hempty : window Block.slot (last + 1) (finalized.toNat + 1) chain.blocks = [] := by
          rw [List.eq_nil_iff_forall_not_mem]
          intro x hx
          obtain ⟨hx, hlow, hhigh⟩ := mem_window.mp hx
          have := habove x hx (by omega)
          omega
        rw [hempty, List.append_nil, FinalizedChain.between]
      rw [FinalizedChain.tip, FinalizedChain.between, getLast_window chain.ascending (by omega) hne]
      rw [FinalizedChain.between] at hsame
      rw [hsame, hlast]
    | none =>
      have hempty := List.getLast?_eq_none_iff.mp hlast
      have hdown : ∀ b ∈ chain.blocks, start ≤ b.slot → finalized.toNat < b.slot := by
        intro b hb hslot
        by_cases hle : b.slot ≤ last
        · have hmem : b ∈ chain.between start last := mem_window.mpr ⟨hb, hslot, by omega⟩
          simp [hempty] at hmem
        · exact habove b hb (by omega)
      simp only [Option.map_none]
      by_cases hend : start = opening
      · rw [if_pos hend]
        refine acquires_throw hnext (.inl ⟨opening, hopening, hpruning _ ?_⟩)
        intro b hb
        obtain ⟨hb, -, hle⟩ := mem_window.mp hb
        by_contra hge
        have := hdown b hb (by omega)
        omega
      · rw [if_neg hend]
        apply acquires_bind
        refine acquires_minus hnext (by omega) ?_
        refine ih (l := { l with enumerations := l.enumerations + 1 }) hnext ?_ hopening ?_ ?_ ?_
        · show maxEnumerations < fuel + (l.enumerations + 1)
          omega
        · omega
        · omega
        · exact fun b hb hlt => hdown b hb (by omega)

theorem acquires_completeTip (hpruning : ∀ f, chain.AboveTip finalized f → pruning f) {fuel : Nat}
    (hfuel : maxEnumerations < fuel) :
    Acquires chain finalized pruning
      (fun r l => chain.tip finalized = some r.1.block ∧ r.1.lowerBound.toNat ∈ l.readings ∧
        l.enumerations = r.2)
      (completeTip codec fuel) {} := by
  apply acquires_bind
  apply acquires_finalizedSlot (Nat.zero_le _)
  apply acquires_bind
  refine acquires_firstAvailable (Nat.zero_le _) fun opening => ?_
  by_cases hopening : finalized < opening
  · rw [if_pos hopening]
    refine acquires_throw (Nat.zero_le _) (.inl ⟨opening.toNat, List.mem_cons_self, hpruning _ ?_⟩)
    intro b hb
    have hle := (mem_window.mp hb).2.2
    have hlt : finalized.toNat < opening.toNat := hopening
    omega
  · rw [if_neg hopening]
    have hle : opening.toNat ≤ finalized.toNat := Nat.not_lt.mp hopening
    apply acquires_bind
    refine acquires_mono (acquires_searchTip (l := { readings := [opening.toNat] }) hpruning (Nat.zero_le _)
      (by simpa using hfuel) List.mem_cons_self hle (Nat.le_refl _) fun _ _ h => h) ?_
    rintro ⟨candidate, enumerations⟩ l hl ⟨⟨b, htip, hcandidate⟩, -, hcount⟩
    obtain rfl : candidate = b.reference.position.val := hcandidate
    apply acquires_bind
    refine acquires_requiredBlock hl (tip_mem htip).1 ?_
    apply acquires_bind
    refine acquires_firstAvailable hl fun closing => ?_
    by_cases hclosing : b.reference.position.val < closing
    · rw [if_pos hclosing]
      refine acquires_throw hl (.inl ⟨closing.toNat, List.mem_cons_self, hpruning _ ?_⟩)
      exact aboveTip_of_lt htip hclosing
    · rw [if_neg hclosing]
      exact acquires_pure hl ⟨htip, List.mem_cons_self, hcount⟩

/-! ## A slot range -/

theorem windowWidth_pos (remaining : Nat) : 1 ≤ windowWidth remaining := by
  simp only [windowWidth, descendingWindow]
  omega

theorem windowWidth_le (remaining : Nat) : windowWidth remaining ≤ maxEnumerationSpan := by
  simp only [windowWidth, descendingWindow, maxForwardWindow, maxEnumerationSpan]
  omega

/-- The blocks at hand are those below the cursor, and there is room for more. -/
theorem acquires_collect {top : Block} (htop : chain.tip finalized = some top) {start bound limit fuel cursor : Nat}
    (hl : l.enumerations ≤ maxEnumerations) (hfuel : maxEnumerations < fuel + l.enumerations)
    (hstart : start ≤ cursor) (hcursor : cursor ≤ bound) (hbound : bound ≤ top.slot)
    (hroom : (window Block.slot start cursor chain.blocks).length < limit) :
    Acquires chain finalized pruning (fun blocks _ => blocks = (chain.between start bound).take limit)
      (collect codec top.slot bound limit fuel l.enumerations cursor (window Block.slot start cursor chain.blocks)) l := by
  induction fuel generalizing l cursor with
  | zero => omega
  | succ fuel ih =>
    obtain ⟨htopmem, htople⟩ := tip_mem htop
    have hslot : top.slot < 2 ^ 64 := Nat.lt_of_le_of_lt htople finalized.toNat_lt
    generalize hacc : window Block.slot start cursor chain.blocks = acc at hroom ⊢
    rw [collect, if_pos ⟨hcursor, hroom⟩]
    apply acquires_bind
    apply acquires_ensureBeforeDeadline hl
    apply acquires_bind
    refine acquires_minus hl (Nat.le_of_lt hroom) ?_
    generalize hremaining : limit - acc.length = remaining
    apply acquires_bind
    refine acquires_minus hl (windowWidth_pos _) ?_
    have hwidth := windowWidth_le remaining
    have hpos := windowWidth_pos remaining
    generalize hend : min (min (cursor + (windowWidth remaining - 1)) (2 ^ 64 - 1)) bound = windowEnd
    have hreach : cursor ≤ windowEnd := by omega
    have hwithin : windowEnd ≤ bound := by omega
    apply acquires_bind
    refine acquires_enumerate hl hreach (by omega) ?_
    intro hbudget
    have hnext : l.enumerations + 1 ≤ maxEnumerations := hbudget
    have hseen : ¬ (windowEnd = top.slot ∧
        ((chain.between cursor windowEnd).map (·.reference.position.val)).getLast?.map (·.toNat) ≠
          some windowEnd) := by
      rintro ⟨rfl, hmissing⟩
      apply hmissing
      rw [List.getLast?_map, FinalizedChain.between,
        getLast_window_of_mem chain.ascending htopmem (Nat.le_trans hcursor hbound)]
      rfl
    simp only [if_neg hseen, ← List.map_take]
    -- What is at hand afterwards is the first `limit` blocks of the range so far.
    have hjoined : acc ++ (chain.between cursor windowEnd).take remaining =
        (chain.between start windowEnd).take limit := by
      rw [FinalizedChain.between, FinalizedChain.between,
        window_append chain.ascending hstart (by omega : cursor ≤ windowEnd + 1), hacc, List.take_append,
        List.take_of_length_le (Nat.le_of_lt hroom), hremaining]
    apply acquires_bind
    refine acquires_extendBlocks hnext ?_ ?_ ?_
    · exact fun b hb => (mem_window.mp (List.mem_of_mem_take hb)).1
    · rw [hjoined]
      exact (chain.between_connected (by omega)).take _
    · rw [hjoined]
      have hsplit : chain.between start bound =
          chain.between start windowEnd ++ window Block.slot (windowEnd + 1) (bound + 1) chain.blocks :=
        window_append chain.ascending (by omega) (by omega)
      by_cases hdone : ((chain.between start windowEnd).take limit).length = limit ∨ windowEnd = bound
      · rw [if_pos hdone]
        refine acquires_pure hnext ?_
        rcases hdone with hfull | rfl
        · have hlen : limit ≤ (chain.between start windowEnd).length := by
            rw [List.length_take] at hfull
            omega
          rw [hsplit, List.take_append_of_le_length hlen]
        · rfl
      · rw [if_neg hdone, if_pos (by omega : windowEnd + 1 < 2 ^ 64)]
        simp only [not_or, List.length_take] at hdone
        have hshort : (chain.between start windowEnd).length < limit := by omega
        rw [List.take_of_length_le (Nat.le_of_lt hshort)]
        refine ih (l := { l with enumerations := l.enumerations + 1 }) hnext ?_ (by omega) (by omega) hshort
        show maxEnumerations < fuel + (l.enumerations + 1)
        omega

/-- The blocks that a range read stands for. -/
def FinalizedChain.earliest (chain : FinalizedChain codec) (finalized : UInt64) (start last : BlockPosition)
    (limit : Nat) (blocks : List Block) : Prop :=
  ∃ top, chain.tip finalized = some top ∧
    blocks = (chain.between start.toNat (min last.toNat top.slot)).take limit ∧ blocks.IsChain Connects

theorem acquires_sparseBlocks {start last : BlockPosition} {limit fuel : Nat}
    (hpruning : ∀ f, chain.AboveTip finalized f → pruning f) (hstart : ∀ f, start.toNat < f → pruning f)
    (hfuel : maxEnumerations < fuel) (horder : start ≤ last) (hlimit : 0 < limit) :
    Acquires chain finalized pruning (fun blocks _ => chain.earliest finalized start last limit blocks)
      (sparseBlocks codec fuel start last limit) {} := by
  apply acquires_bind
  refine acquires_mono (acquires_completeTip hpruning hfuel) ?_
  rintro ⟨⟨top, lowerBound⟩, enumerations⟩ l hl ⟨htop, hlower, hcount⟩
  have horder : start.toNat ≤ last.toNat := horder
  by_cases habove : top.reference.position < start
  · simp only [if_pos habove]
    have hlt : top.slot < start.toNat := habove
    have hempty : chain.between start.toNat (min last.toNat top.slot) = [] := by
      rw [List.eq_nil_iff_forall_not_mem]
      intro b hb
      have := mem_window.mp hb
      omega
    exact acquires_pure hl ⟨top, htop, by rw [hempty, List.take_nil], List.isChain_nil⟩
  · simp only [if_neg habove]
    have hle : start.toNat ≤ top.slot := Nat.not_lt.mp habove
    by_cases hlow : start.val < lowerBound
    · simp only [if_pos hlow]
      exact acquires_throw hl (.inl ⟨lowerBound.toNat, hlower, hstart _ hlow⟩)
    · simp only [if_neg hlow]
      apply acquires_bind
      have hnone : window Block.slot start.toNat start.toNat chain.blocks = [] := by
        rw [List.eq_nil_iff_forall_not_mem]
        intro b hb
        have := mem_window.mp hb
        omega
      have hcollect : Acquires chain finalized pruning
          (fun blocks _ => blocks = (chain.between start.toNat (min last.toNat top.slot)).take limit)
          (collect codec top.slot (min last.toNat top.slot) limit fuel l.enumerations start.toNat
            (window Block.slot start.toNat start.toNat chain.blocks)) l :=
        acquires_collect htop hl (by omega) (Nat.le_refl _) (by omega) (Nat.min_le_right _ _)
          (by rw [hnone]; exact hlimit)
      rw [hnone, hcount] at hcollect
      refine acquires_mono hcollect fun blocks l' hl' hblocks => ?_
      apply acquires_bind
      refine acquires_firstAvailable hl' fun closing => ?_
      by_cases hclosing : start.val < closing
      · rw [if_pos hclosing]
        exact acquires_throw hl' (.inl ⟨closing.toNat, List.mem_cons_self, hstart _ hclosing⟩)
      · rw [if_neg hclosing]
        refine acquires_pure hl' ⟨top, htop, hblocks, ?_⟩
        rw [hblocks]
        exact (chain.between_connected (by omega)).take _

end Attempts

/-- On every finalized chain, whatever fails and whatever is pruned meanwhile: a range read
gives the first produced blocks of the range up to the tip, and the tip is the highest
produced block up to the finalized slot. Neither overflows, asks for more than 64
enumerations or runs on, and each fails only for pruning above its start or above the tip,
the budget, the deadline or a request. -/
theorem source_acquires (chain : FinalizedChain codec) (finalized : UInt64) (fuel : Nat)
    (hfuel : maxEnumerations < fuel) :
    (∀ start last limit, start ≤ last → 0 < limit →
      Acquires chain finalized (fun f => chain.AboveTip finalized f ∨ start.toNat < f)
        (fun blocks _ => chain.earliest finalized start last limit blocks)
        (blocks codec fuel start last limit) {}) ∧
    Acquires chain finalized (chain.AboveTip finalized)
      (fun reference _ => ∃ top, chain.tip finalized = some top ∧ reference = top.reference)
      (tip codec fuel) {} := by
  constructor
  · intro start last limit horder hlimit
    have hvalid : ¬ (limit = 0 ∨ last < start) := by
      rw [BlockPosition.lt_def]
      rw [BlockPosition.le_def] at horder
      omega
    rw [blocks, if_neg hvalid]
    exact acquires_sparseBlocks (fun _ h => .inl h) (fun _ h => .inr h) hfuel horder hlimit
  · apply acquires_bind
    refine acquires_mono (acquires_completeTip (fun _ h => h) hfuel) ?_
    rintro ⟨top, enumerations⟩ l hl ⟨htop, -, -⟩
    exact acquires_pure hl ⟨top.block, htop, rfl⟩

/-! ## One block -/

/-- Every request is answered, and the first available slot stays the same. -/
def FinalizedChain.serve (chain : FinalizedChain codec) (finalized first : UInt64) :
    (op : Op) → Log → op.Ans × Log
  | .now, l => (false, l)
  | .slot, l => (.ok finalized, l)
  | .firstAvailable, l => (.ok first, { l with readings := first.toNat :: l.readings })
  | .getBlocks start last _, l =>
    (.ok ((chain.between start last).map (·.reference.position.val)),
      { l with enumerations := l.enumerations + 1 })
  | .getBlock slot, l => (.ok (chain.rawAt slot), l)

theorem serve_answers (chain : FinalizedChain codec) (finalized first : UInt64) (op : Op) (l : Log) :
    chain.Answers finalized op l (chain.serve finalized first op l).1
      (chain.serve finalized first op l).2 := by
  cases op <;> simp [FinalizedChain.Answers, FinalizedChain.serve, Log.hear, Log.read]

/-- The text of 31 zero bytes and a last one. -/
def sampleHash (last : Char) : String := String.ofList (List.replicate 31 '1' ++ [last])

def sampleHashes : List (String × List UInt8) :=
  [(sampleHash '1', List.replicate 31 0 ++ [0]), (sampleHash '2', List.replicate 31 0 ++ [1]),
    (sampleHash '3', List.replicate 31 0 ++ [2]), (sampleHash '4', List.replicate 31 0 ++ [3])]

def sampleFirst : BlockWire := ⟨sampleHash '2', sampleHash '1', 4, some 123, some 4⟩

def sampleSecond : BlockWire := ⟨sampleHash '3', sampleHash '2', 5, some 124, some 5⟩

def sampleThird : BlockWire := ⟨sampleHash '4', sampleHash '3', 8, some 126, some 6⟩

def sampleRaw (wire : BlockWire) : List UInt8 :=
  ("\x7b\"blockhash\":\"" ++ wire.blockhash ++ "\",\"previousBlockhash\":\"" ++ wire.previousBlockhash ++
    "\",\"parentSlot\":" ++ toString wire.parentSlot ++ ",\"transactions\":[],\"blockTime\":" ++
    toString (wire.blockTime.getD 0) ++ ",\"blockHeight\":" ++ toString (wire.blockHeight.getD 0) ++
    "\x7d").toUTF8.toList

def sampleCodec : Codec where
  decode := fun raw => [sampleFirst, sampleSecond, sampleThird].find? fun wire => decide (sampleRaw wire = raw)
  hashFromStr := fun text => sampleHashes.lookup text
  hashToString := fun hash => ((sampleHashes.find? fun entry => decide (entry.2 = hash)).map (·.1)).getD ""

def sampleBlock (slot : UInt64) (hash parent : UInt8) (wire : BlockWire) : Block where
  reference := ⟨⟨slot⟩, ⟨wire.blockHeight.getD 0⟩, ⟨List.replicate 31 0 ++ [hash]⟩,
    some ⟨⟨wire.parentSlot⟩, ⟨List.replicate 31 0 ++ [parent]⟩⟩, wire.blockTime.map Int64.toUInt64⟩
  raw := sampleRaw wire

def sampleChain : FinalizedChain sampleCodec where
  blocks := [sampleBlock 5 1 0 sampleFirst]
  parsed := by decide +kernel
  connected := List.isChain_singleton _

/-- Slots 6, 7 and 9 have no block. -/
def sampleGaps : FinalizedChain sampleCodec where
  blocks := [sampleBlock 5 1 0 sampleFirst, sampleBlock 8 2 1 sampleSecond, sampleBlock 10 3 2 sampleThird]
  parsed := by decide +kernel
  connected := .cons_cons ⟨by decide, by decide, by decide⟩ (.cons_cons ⟨by decide, by decide, by decide⟩ (.singleton _))

/-- With slot 10 finalized and everything retained, the first two of the blocks are found. -/
theorem sampleGaps_acquires :
    Acquires sampleGaps 10 (fun f => sampleGaps.AboveTip 10 f ∨ 3 < f)
        (fun blocks _ => sampleGaps.earliest 10 ⟨3⟩ ⟨9⟩ 2 blocks) (blocks sampleCodec 65 ⟨3⟩ ⟨9⟩ 2) {} ∧
      (Prog.run (sampleGaps.serve 10 0) (blocks sampleCodec 65 ⟨3⟩ ⟨9⟩ 2) {}).1 =
        .ok [sampleBlock 5 1 0 sampleFirst, sampleBlock 8 2 1 sampleSecond] ∧
      (Prog.run (sampleGaps.serve 10 0) (tip sampleCodec 65) {}).1 =
        .ok (sampleBlock 10 3 2 sampleThird).reference := by
  refine ⟨?_, by decide +kernel, by decide +kernel⟩
  exact (source_acquires sampleGaps 10 65 (by decide)).1 ⟨3⟩ ⟨9⟩ 2 (by decide) (by decide)

/-- With the block at slot 5 pruned and slot 8 the first available one, a read from slot 9 on
fails, though nothing is pruned above its start. -/
theorem sampleChain_unretained :
    (∀ op l, sampleChain.Answers 10 op l (sampleChain.serve 10 8 op l).1 (sampleChain.serve 10 8 op l).2) ∧
      Prog.run (sampleChain.serve 10 8) (blocks sampleCodec 65 ⟨9⟩ ⟨10⟩ 1) {} =
        (.error (.failed ⟨"Solana finalized history contains no retained produced block", true⟩),
          ({ readings := [8], enumerations := 1 } : Log)) := by
  exact ⟨serve_answers sampleChain 10 8, rfl⟩

end PaymentSdk.Solana.Slots
