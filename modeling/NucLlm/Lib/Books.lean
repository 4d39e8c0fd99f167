import Mathlib.Algebra.BigOperators.Group.List.Basic

/-!
# Nested accounts

Accounts are opened one inside the other, and a charge is made to every account
that is open.  The books list, for each of these, what was charged to it directly
and the accounts that were opened in it and closed again.
-/

namespace NucLlm.Books

variable {L C : Type}

/-- An entry of the books of one account: a direct charge, or a closed account. -/
inductive Item (L C : Type) where
  | own (c : C)
  | nested (account : L) (items : List (Item L C))

mutual

def Item.charges : Item L C → List C
  | .own c => [c]
  | .nested _ items => charges items

/-- Every charge once, in the order they were made. -/
def charges : List (Item L C) → List C
  | [] => []
  | item :: items => item.charges ++ charges items

end

@[simp] theorem charges_append (items items' : List (Item L C)) :
    charges (items ++ items') = charges items ++ charges items' := by
  induction items with
  | nil => rfl
  | cons item items ih => simp [charges, ih]

@[simp] theorem charges_own (c : C) : charges [(.own c : Item L C)] = [c] := rfl

@[simp] theorem charges_nested (l : L) (items : List (Item L C)) :
    charges [.nested l items] = charges items := by
  simp [charges, Item.charges]

/-! ## Keeping the books -/

/-- The items of the open accounts, the innermost first. -/
abbrev Book (L C : Type) := List (List (Item L C))

namespace Book

def charge (c : C) (book : Book L C) : Book L C := book.modifyHead (· ++ [.own c])

def opened (book : Book L C) : Book L C := [] :: book

/-- The innermost account is closed, and listed in the one around it. -/
def closed (l : L) : Book L C → Book L C
  | items :: items' :: book => (items' ++ [.nested l items]) :: book
  | _ => []

end Book

/-! ## Accounts that balance -/

section

variable (covers : L → List C → Prop)

/-- A closed account covers what was charged to it, and so do the accounts in it. -/
inductive Settled : Item L C → Prop where
  | own (c : C) : Settled (.own c)
  | nested {l : L} {items : List (Item L C)} (hcovers : covers l (charges items))
      (hitems : ∀ item ∈ items, Settled item) : Settled (.nested l items)

/-- The open accounts cover what the books say was charged to them, where `inner` was
charged to the accounts inside. -/
def Balanced (inner : List C) : List L → Book L C → Prop
  | [], [] => True
  | l :: up, items :: book =>
      covers l (charges items ++ inner) ∧ (∀ item ∈ items, Settled covers item) ∧
        Balanced (charges items ++ inner) up book
  | _, _ => False

end

section

variable {covers : L → List C → Prop} {inner : List C} {chain : List L} {book : Book L C}

theorem Balanced.around (h : Balanced covers inner chain book) {apply : C → L → L}
    (happly : ∀ c l cs, covers l cs → covers (apply c l) (cs ++ [c])) (c : C) :
    Balanced covers (inner ++ [c]) (chain.map (apply c)) book := by
  induction chain generalizing inner book with
  | nil =>
      cases book with
      | nil => trivial
      | cons items book => exact h.elim
  | cons l up ih =>
      cases book with
      | nil => exact h.elim
      | cons items book =>
          obtain ⟨hcovers, hsettled, hup⟩ := h
          have hcovers' := happly c l _ hcovers
          have hup' := ih hup
          rw [List.append_assoc] at hcovers' hup'
          exact ⟨hcovers', hsettled, hup'⟩

/-- A charge to the innermost account is one to all that are open. -/
theorem Balanced.charge (h : Balanced covers [] chain book) {apply : C → L → L}
    (happly : ∀ c l cs, covers l cs → covers (apply c l) (cs ++ [c])) (c : C) :
    Balanced covers [] (chain.map (apply c)) (book.charge c) := by
  cases chain with
  | nil =>
      cases book with
      | nil => trivial
      | cons items book => exact h.elim
  | cons l up =>
      cases book with
      | nil => exact h.elim
      | cons items book =>
          obtain ⟨hcovers, hsettled, hup⟩ := h
          have hcovers' := happly c l _ hcovers
          have hup' := hup.around happly c
          simp only [List.append_nil] at hcovers' hup'
          refine ⟨by simpa using hcovers', ?_, by simpa using hup'⟩
          intro item hitem
          rcases List.mem_append.mp hitem with hitem | hitem
          · exact hsettled item hitem
          · obtain rfl := List.mem_singleton.mp hitem
            exact .own c

theorem Balanced.opened (h : Balanced covers [] chain book) {l : L} (hl : covers l []) :
    Balanced covers [] (l :: chain) book.opened := by
  refine ⟨hl, ?_, h⟩
  intro item hitem
  contradiction

theorem Balanced.closed {l : L} (h : Balanced covers [] (l :: chain) book) :
    Balanced covers [] chain (book.closed l) := by
  cases book with
  | nil => exact h.elim
  | cons items book =>
      obtain ⟨hcovers, hsettled, hup⟩ := h
      cases chain with
      | nil =>
          cases book with
          | nil => trivial
          | cons items' book => exact hup.elim
      | cons l' up =>
          cases book with
          | nil => exact hup.elim
          | cons items' book =>
              obtain ⟨hcovers', hsettled', hup'⟩ := hup
              rw [List.append_nil] at hcovers hcovers' hup'
              refine ⟨by simpa using hcovers', ?_, by simpa using hup'⟩
              intro item hitem
              rcases List.mem_append.mp hitem with hitem | hitem
              · exact hsettled' item hitem
              · obtain rfl := List.mem_singleton.mp hitem
                exact .nested hcovers hsettled

/-- What coverage does not look at may change. -/
theorem Balanced.amend (h : Balanced covers inner chain book) {f : L → L}
    (hf : ∀ l cs, covers l cs → covers (f l) cs) :
    Balanced covers inner (chain.modifyHead f) book := by
  cases chain with
  | nil => exact h
  | cons l up =>
      cases book with
      | nil => exact h.elim
      | cons items book => exact ⟨hf l _ h.1, h.2⟩

end

/-! ## Amounts -/

section

variable {A : Type} [AddCommMonoid A] (amount : L → A) (cost : C → A)

/-- What an item comes to: a closed account stands for all that was charged to it. -/
def Item.worth : Item L C → A
  | .own c => cost c
  | .nested l _ => amount l

/-- Every open account comes to its items and to the account that is open inside it. -/
def Included : A → List L → Book L C → Prop
  | _, [], [] => True
  | inside, l :: up, items :: book =>
      amount l = (items.map (Item.worth amount cost)).sum + inside ∧ Included (amount l) up book
  | _, _, _ => False

variable {amount cost} {covers : L → List C → Prop}
  (hamount : ∀ l cs, covers l cs → amount l = (cs.map cost).sum)
include hamount

theorem worth_items {items : List (Item L C)} (h : ∀ item ∈ items, Settled covers item) :
    ((charges items).map cost).sum = (items.map (Item.worth amount cost)).sum := by
  induction items with
  | nil => rfl
  | cons item items ih =>
      have htail := ih fun item' hitem' ↦ h item' (List.mem_cons_of_mem item hitem')
      have hitem : (item.charges.map cost).sum = item.worth amount cost := by
        cases h item List.mem_cons_self with
        | own c => simp [Item.charges, Item.worth]
        | nested hcovers _ => exact (hamount _ _ hcovers).symm
      simp only [charges, List.map_append, List.sum_append, List.map_cons, List.sum_cons, htail,
        hitem]

theorem Settled.worth {l : L} {items : List (Item L C)} (h : Settled covers (.nested l items)) :
    amount l = (items.map (Item.worth amount cost)).sum := by
  cases h with
  | nested hcovers hitems => rw [hamount l _ hcovers, worth_items hamount hitems]

theorem Balanced.included {inner : List C} {chain : List L} {book : Book L C}
    (h : Balanced covers inner chain book) :
    Included amount cost ((inner.map cost).sum) chain book := by
  induction chain generalizing inner book with
  | nil =>
      cases book with
      | nil => trivial
      | cons items book => exact h.elim
  | cons l up ih =>
      cases book with
      | nil => exact h.elim
      | cons items book =>
          obtain ⟨hcovers, hsettled, hup⟩ := h
          have htotal := hamount l _ hcovers
          have hup' := ih hup
          rw [← htotal] at hup'
          refine ⟨?_, hup'⟩
          rw [htotal, List.map_append, List.sum_append, worth_items hamount hsettled]

end

end NucLlm.Books
