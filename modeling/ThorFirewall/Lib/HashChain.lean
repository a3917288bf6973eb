import Mathlib.Data.List.Infix
import Mathlib.Data.List.Forall2

/-!
# Hash chains

A list of entries, each with a hash that it carries. `Chain ok carried p l` says that every entry of `l` is all right
after the hash of the entry before it, the first one after `p`. The lemmas are the ways a chain can change:

- at its end (`chain_concat`), where the entry must be all right after the last hash;
- in the middle (`ok_of_chain_insert`), where the entry behind the new one must be all right after the new hash;
- in place, with every hash as it was (`chain_iff_of_carried`).
-/

namespace HashChain

variable {α η : Type*}

def Chain (ok : η → α → Prop) (carried : α → η) : η → List α → Prop
  | _, [] => True
  | p, a :: l => ok p a ∧ Chain ok carried (carried a) l

/-- The hash that the next entry follows. -/
def lastHash (carried : α → η) (p : η) (l : List α) : η := l.foldl (fun _ a => carried a) p

variable {ok : η → α → Prop} {carried : α → η} {p : η} {l : List α}

@[simp] theorem chain_nil : Chain ok carried p [] := trivial

@[simp] theorem chain_cons {a : α} : Chain ok carried p (a :: l) ↔ ok p a ∧ Chain ok carried (carried a) l := Iff.rfl

@[simp] theorem lastHash_nil : lastHash carried p [] = p := rfl

@[simp] theorem lastHash_concat (a : α) : lastHash carried p (l ++ [a]) = carried a := by
  simp [lastHash]

/-- The last hash is the one a chain starts after, or one that an entry carries. -/
theorem lastHash_eq_or_mem (carried : α → η) (p : η) (l : List α) :
    lastHash carried p l = p ∨ ∃ a ∈ l, lastHash carried p l = carried a := by
  induction l using List.reverseRecOn with
  | nil => exact Or.inl rfl
  | append_singleton l a _ => exact Or.inr ⟨a, by simp, lastHash_concat a⟩

theorem chain_append {m : List α} :
    Chain ok carried p (l ++ m) ↔ Chain ok carried p l ∧ Chain ok carried (lastHash carried p l) m := by
  induction l generalizing p with
  | nil => simp
  | cons a l ih => simp [ih, and_assoc, lastHash]

theorem chain_concat {a : α} :
    Chain ok carried p (l ++ [a]) ↔ Chain ok carried p l ∧ ok (lastHash carried p l) a := by
  simp [chain_append]

/-- A chain with an entry put in its middle: the entry behind it follows the new hash. -/
theorem ok_of_chain_insert {m : List α} {a b : α} (h : Chain ok carried p (l ++ a :: b :: m)) : ok (carried a) b :=
  (chain_append.1 h).2.2.1

/-- Two lists of entries that carry the same hashes: one is a chain exactly if each entry of it is as good as that of the
other, which is one. `S` is how the entries correspond, `Q` are the hashes that an entry can come after. -/
theorem chain_iff_of_carried {R S : α → α → Prop} {Q : η → Prop} {m : List α} (hS : List.Forall₂ S l m)
    (hcarried : ∀ a b, S a b → carried a = carried b) (hp : Q p) (hQ : ∀ a ∈ l, Q (carried a))
    (hok : ∀ p a b, Q p → a ∈ l → b ∈ m → S a b → ok p a → (ok p b ↔ R a b)) (h : Chain ok carried p l) :
    Chain ok carried p m ↔ List.Forall₂ R l m := by
  induction hS generalizing p with
  | nil => simp
  | @cons a b l m hab _ ih =>
    have hhead := hok p a b hp (by simp) (by simp) hab h.1
    have htail := ih (hQ a (by simp)) (fun x hx => hQ x (by simp [hx]))
      (fun p x y hq hx hy => hok p x y hq (by simp [hx]) (by simp [hy])) h.2
    rw [chain_cons, List.forall₂_cons, hhead, ← hcarried a b hab, htail]

end HashChain
