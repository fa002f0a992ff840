import PaymentSdk.Lib.Prog

/-!
# Traces of programs

Which calls a program makes, with what they are answered, and what it then returns. The answers
are arbitrary. A program over other programs has the traces of what each of its calls becomes.
-/

namespace Interaction

/-- A call and its answer. -/
abbrev Exchange (E : Calls) := (op : E.Op) × E.Ans op

namespace Prog

variable {E F : Calls} {α β ε : Type}

/-- The program ends with this value, after these questions and answers. -/
inductive Traced : Prog E α → List (Exchange E) → α → Prop where
  | done (a : α) : Traced (.done a) [] a
  | call {op : E.Op} {next : E.Ans op → Prog E α} {log : List (Exchange E)} {a : α} (r : E.Ans op) :
      Traced (next r) log a → Traced (.call op next) (⟨op, r⟩ :: log) a

/-- What a program does where every call has one answer. -/
def answered (answer : (op : E.Op) → E.Ans op) : Prog E α → List (Exchange E) × α
  | done a => ([], a)
  | call op next =>
    (⟨op, answer op⟩ :: ((next (answer op)).answered answer).1, ((next (answer op)).answered answer).2)

theorem traced_answered (answer : (op : E.Op) → E.Ans op) (p : Prog E α) :
    Traced p (p.answered answer).1 (p.answered answer).2 := by
  induction p with
  | done a => exact .done a
  | call op next ih => exact .call _ (ih _)

variable {log : List (Exchange E)} {a : α} {b : β}

@[simp]
theorem traced_done {c : α} : Traced (.done a : Prog E α) log c ↔ log = [] ∧ c = a := by
  constructor
  · rintro ⟨⟩
    exact ⟨rfl, rfl⟩
  · rintro ⟨rfl, rfl⟩
    exact .done _

@[simp]
theorem traced_pure {c : α} : Traced (pure a : ExceptT ε (Prog E) α) log (.ok c) ↔ log = [] ∧ c = a := by
  refine traced_done.trans ?_
  simp

theorem traced_call {op : E.Op} {next : E.Ans op → Prog E α} :
    Traced (.call op next) log a ↔ ∃ r rest, log = ⟨op, r⟩ :: rest ∧ Traced (next r) rest a := by
  constructor
  · rintro ⟨⟩
    exact ⟨_, _, rfl, by assumption⟩
  · rintro ⟨r, rest, rfl, h⟩
    exact .call r h

theorem traced_perform {op : E.Op} {r : E.Ans op} : Traced (perform op) log r ↔ log = [⟨op, r⟩] := by
  unfold perform
  rw [traced_call]
  constructor
  · rintro ⟨r', rest, rfl, h⟩
    obtain ⟨rfl, rfl⟩ := traced_done.mp h
    rfl
  · rintro rfl
    exact ⟨r, [], rfl, .done r⟩

theorem traced_bind {p : Prog E α} {f : α → Prog E β} :
    Traced (p.bind f) log b ↔ ∃ first a rest, log = first ++ rest ∧ Traced p first a ∧ Traced (f a) rest b := by
  induction p generalizing log with
  | done a =>
    constructor
    · exact fun h => ⟨[], a, log, rfl, .done a, h⟩
    · rintro ⟨first, a', rest, rfl, hfirst, h⟩
      obtain ⟨rfl, rfl⟩ := traced_done.mp hfirst
      exact h
  | call op next ih =>
    constructor
    · intro h
      obtain ⟨r, rest, rfl, hnext⟩ := traced_call.mp h
      obtain ⟨first, a, more, rfl, hfirst, hrest⟩ := (ih r).mp hnext
      exact ⟨⟨op, r⟩ :: first, a, more, rfl, .call r hfirst, hrest⟩
    · rintro ⟨first, a, rest, rfl, hfirst, h⟩
      obtain ⟨r, more, rfl, hnext⟩ := traced_call.mp hfirst
      exact .call r ((ih r).mpr ⟨more, a, rest, rfl, hnext, h⟩)

theorem traced_except_bind {p : ExceptT ε (Prog E) α} {f : α → ExceptT ε (Prog E) β} {r : Except ε β} :
    Traced (p >>= f : ExceptT ε (Prog E) β) log r ↔
      (∃ first a rest, log = first ++ rest ∧ Traced (p : Prog E (Except ε α)) first (.ok a) ∧
        Traced (f a : Prog E (Except ε β)) rest r) ∨
      ∃ e, Traced (p : Prog E (Except ε α)) log (.error e) ∧ r = .error e := by
  rw [except_bind_eq, traced_bind]
  constructor
  · rintro ⟨first, x, rest, rfl, hfirst, h⟩
    cases x with
    | ok a => exact .inl ⟨first, a, rest, rfl, hfirst, h⟩
    | error e =>
      obtain ⟨rfl, rfl⟩ := traced_done.mp h
      rw [List.append_nil]
      exact .inr ⟨e, hfirst, rfl⟩
  · rintro (⟨first, a, rest, rfl, hfirst, h⟩ | ⟨e, h, rfl⟩)
    · exact ⟨first, .ok a, rest, rfl, hfirst, h⟩
    · exact ⟨log, .error e, [], by simp, h, .done _⟩

theorem traced_bind_ok {p : ExceptT ε (Prog E) α} {f : α → ExceptT ε (Prog E) β} :
    Traced (p >>= f : ExceptT ε (Prog E) β) log (.ok b) ↔
      ∃ first a rest, log = first ++ rest ∧ Traced (p : Prog E (Except ε α)) first (.ok a) ∧
        Traced (f a : Prog E (Except ε β)) rest (.ok b) := by
  rw [traced_except_bind]
  simp

/-- A result that no call is needed for. -/
def ofExcept (x : Except ε α) : ExceptT ε (Prog E) α := Prog.done x

def mapError {δ : Type} (f : ε → δ) (p : ExceptT ε (Prog E) α) : ExceptT δ (Prog E) α :=
  Prog.bind (p : Prog E (Except ε α)) fun r => .done (r.mapError f)

/-- Goes on with the result, whatever it is. -/
def attempt {δ : Type} (p : ExceptT ε (Prog E) α) : ExceptT δ (Prog E) (Except ε α) :=
  Prog.bind (p : Prog E (Except ε α)) fun r => .done (.ok r)

theorem traced_attempt_bind {δ : Type} {p : ExceptT ε (Prog E) α} {f : Except ε α → ExceptT δ (Prog E) β}
    {r : Except δ β} :
    Traced (attempt p >>= f : ExceptT δ (Prog E) β) log r ↔
      ∃ first x rest, log = first ++ rest ∧ Traced (p : Prog E (Except ε α)) first x ∧
        Traced (f x : Prog E (Except δ β)) rest r := by
  have hattempt : ∀ {first : List (Exchange E)} {y : Except δ (Except ε α)},
      Traced (attempt p : Prog E (Except δ (Except ε α))) first y ↔
        ∃ x, Traced (p : Prog E (Except ε α)) first x ∧ y = .ok x := by
    intro first y
    unfold attempt
    rw [traced_bind]
    constructor
    · rintro ⟨front, x, back, rfl, hfront, h⟩
      obtain ⟨rfl, rfl⟩ := traced_done.mp h
      exact ⟨x, by rwa [List.append_nil], rfl⟩
    · rintro ⟨x, h, rfl⟩
      exact ⟨first, x, [], by simp, h, .done _⟩
  rw [traced_except_bind]
  constructor
  · rintro (⟨first, x, rest, rfl, hfirst, h⟩ | ⟨e, herror, rfl⟩)
    · obtain ⟨x', hx, heq⟩ := hattempt.mp hfirst
      cases heq
      exact ⟨first, _, rest, rfl, hx, h⟩
    · obtain ⟨x, -, heq⟩ := hattempt.mp herror
      cases heq
  · rintro ⟨first, x, rest, rfl, hfirst, h⟩
    exact .inl ⟨first, x, rest, rfl, hattempt.mpr ⟨x, hfirst, rfl⟩, h⟩

theorem traced_ofExcept {x r : Except ε α} :
    Traced (ofExcept x : Prog E (Except ε α)) log r ↔ log = [] ∧ x = r := by
  unfold ofExcept
  rw [traced_done, eq_comm (a := r)]

theorem traced_ofExcept_bind {x : Except ε α} {f : α → ExceptT ε (Prog E) β} :
    Traced (ofExcept x >>= f : ExceptT ε (Prog E) β) log (.ok b) ↔
      ∃ a, x = .ok a ∧ Traced (f a : Prog E (Except ε β)) log (.ok b) := by
  rw [traced_bind_ok]
  constructor
  · rintro ⟨first, a, rest, rfl, hfirst, h⟩
    obtain ⟨rfl, rfl⟩ := traced_ofExcept.mp hfirst
    exact ⟨a, rfl, h⟩
  · rintro ⟨a, rfl, h⟩
    exact ⟨[], a, log, rfl, traced_ofExcept.mpr ⟨rfl, rfl⟩, h⟩

theorem traced_mapError {δ : Type} {f : ε → δ} {p : ExceptT ε (Prog E) α} {r : Except δ α} :
    Traced (mapError f p : Prog E (Except δ α)) log r ↔
      ∃ x, Traced (p : Prog E (Except ε α)) log x ∧ x.mapError f = r := by
  unfold mapError
  rw [traced_bind]
  constructor
  · rintro ⟨first, x, rest, rfl, hfirst, h⟩
    obtain ⟨rfl, rfl⟩ := traced_done.mp h
    exact ⟨x, by rwa [List.append_nil], rfl⟩
  · rintro ⟨x, h, rfl⟩
    exact ⟨log, x, [], by simp, h, .done _⟩

theorem traced_mapError_ok {δ : Type} {f : ε → δ} {p : ExceptT ε (Prog E) α} :
    Traced (mapError f p : Prog E (Except δ α)) log (.ok a) ↔ Traced (p : Prog E (Except ε α)) log (.ok a) := by
  rw [traced_mapError]
  constructor
  · rintro ⟨x, h, hx⟩
    cases x with
    | ok c =>
      cases hx
      exact h
    | error e => cases hx
  · exact fun h => ⟨_, h, rfl⟩

/-! ## Programs that follow a list of calls -/

/-- The calls are the first ones of a list, and all of them where the program returns. -/
def Follows (planned : List E.Op) (p : ExceptT ε (Prog E) α) : Prop :=
  ∀ log r, Traced (p : Prog E (Except ε α)) log r →
    log.map (·.1) <+: planned ∧ ∀ a, r = .ok a → log.map (·.1) = planned

variable {planned more : List E.Op}

theorem follows_ofExcept {x : Except ε α} : Follows [] (ofExcept x : ExceptT ε (Prog E) α) := by
  intro log r h
  obtain ⟨rfl, -⟩ := traced_ofExcept.mp h
  exact ⟨List.prefix_refl _, fun _ _ => rfl⟩

theorem follows_pure : Follows [] (pure a : ExceptT ε (Prog E) α) := follows_ofExcept (x := .ok a)

theorem follows_mapError {δ : Type} {f : ε → δ} {p : ExceptT ε (Prog E) α} (h : Follows planned p) :
    Follows planned (mapError f p) := by
  intro log r htraced
  obtain ⟨x, hx, rfl⟩ := traced_mapError.mp htraced
  refine ⟨(h log x hx).1, fun a ha => ?_⟩
  cases x with
  | ok c => exact (h log _ hx).2 c rfl
  | error e => cases ha

theorem follows_bind {p : ExceptT ε (Prog E) α} {f : α → ExceptT ε (Prog E) β} (hp : Follows planned p)
    (hf : ∀ a, Follows more (f a)) : Follows (planned ++ more) (p >>= f) := by
  intro log r h
  rcases traced_except_bind.mp h with ⟨first, a, rest, rfl, hfirst, hrest⟩ | ⟨e, herror, rfl⟩
  · obtain ⟨hahead, hall⟩ := hf a rest r hrest
    rw [List.map_append, (hp first _ hfirst).2 a rfl]
    exact ⟨(List.prefix_append_right_inj _).mpr hahead, fun b hb => by rw [hall b hb]⟩
  · exact ⟨(hp log _ herror).1.trans (List.prefix_append _ _), fun b hb => by cases hb⟩

theorem follows_before {p : ExceptT ε (Prog E) α} {f : α → ExceptT ε (Prog E) β} (hp : Follows planned p)
    (hf : ∀ a, Follows [] (f a)) : Follows planned (p >>= f) := by
  rw [← List.append_nil planned]
  exact follows_bind hp hf

theorem follows_check {x : Except ε α} {f : α → ExceptT ε (Prog E) β} (hf : ∀ a, x = .ok a → Follows planned (f a)) :
    Follows planned (ofExcept x >>= f) := by
  cases x with
  | ok a => exact hf a rfl
  | error e =>
    intro log r h
    obtain ⟨rfl, rfl⟩ := traced_done.mp h
    exact ⟨List.nil_prefix, fun b hb => by cases hb⟩

theorem follows_bind_some [Inhabited α] {plan : α → List E.Op} {p : ExceptT ε (Prog E) α}
    {f : α → ExceptT ε (Prog E) β} {r : Except ε β} (hp : Follows planned p) (hf : ∀ a, Follows (plan a) (f a))
    (h : Traced (p >>= f : ExceptT ε (Prog E) β) log r) :
    ∃ a, log.map (·.1) <+: planned ++ plan a ∧ ∀ b, r = .ok b → log.map (·.1) = planned ++ plan a := by
  rcases traced_except_bind.mp h with ⟨first, a, rest, rfl, hfirst, hrest⟩ | ⟨e, herror, rfl⟩
  · obtain ⟨hahead, hall⟩ := hf a rest r hrest
    refine ⟨a, ?_⟩
    rw [List.map_append, (hp first _ hfirst).2 a rfl]
    exact ⟨(List.prefix_append_right_inj _).mpr hahead, fun b hb => by rw [hall b hb]⟩
  · exact ⟨default, (hp log _ herror).1.trans (List.prefix_append _ _), fun b hb => by cases hb⟩

/-! ## Programs over programs -/

/-- Every call becomes a program of its own. -/
def through (f : (op : E.Op) → Prog F (E.Ans op)) : Prog E α → Prog F α
  | done a => done a
  | call op next => (f op).bind fun r => (next r).through f

/-- The traces of the programs that the calls became, one after the other. -/
inductive Expands (f : (op : E.Op) → Prog F (E.Ans op)) :
    List (Exchange E) → List (Exchange F) → Prop where
  | nil : Expands f [] []
  | cons {op : E.Op} {r : E.Ans op} {events : List (Exchange E)}
      {log rest : List (Exchange F)} :
      Traced (f op) log r → Expands f events rest → Expands f (⟨op, r⟩ :: events) (log ++ rest)

theorem traced_through {f : (op : E.Op) → Prog F (E.Ans op)} {p : Prog E α} {log : List (Exchange F)} :
    Traced (p.through f) log a ↔ ∃ events, Expands f events log ∧ Traced p events a := by
  induction p generalizing log with
  | done c =>
    constructor
    · intro h
      obtain ⟨rfl, rfl⟩ := traced_done.mp h
      exact ⟨[], .nil, .done _⟩
    · rintro ⟨events, hexpands, h⟩
      obtain ⟨rfl, rfl⟩ := traced_done.mp h
      cases hexpands
      exact .done _
  | call op next ih =>
    unfold through
    constructor
    · intro h
      obtain ⟨first, r, rest, rfl, hfirst, hrest⟩ := traced_bind.mp h
      obtain ⟨events, hexpands, hnext⟩ := (ih r).mp hrest
      exact ⟨⟨op, r⟩ :: events, .cons hfirst hexpands, .call r hnext⟩
    · rintro ⟨events, hexpands, h⟩
      obtain ⟨r, more, rfl, hnext⟩ := traced_call.mp h
      cases hexpands with
      | cons hfirst hrest => exact traced_bind.mpr ⟨_, r, _, rfl, hfirst, (ih r).mpr ⟨more, hrest, hnext⟩⟩

end Prog

end Interaction
