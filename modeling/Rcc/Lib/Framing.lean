import Mathlib.Data.List.Basic
import Mathlib.Tactic

/-!
# Rcc.Lib.Framing

A stream of frames that arrives in pieces, and a parser that is run over what has arrived.

* `Parse`, `Stable` — a parser whose answers do not change when more arrives;
* `drain` — take frames off the front until there is none;
* `feed`, `feed_flatten` — pieces fed one after another give what the whole gives at once.
-/

namespace Framing

open List

variable {α β : Type}

/-- The answer of a parser: wait for more, give up, or a frame of some length. -/
inductive Parse (β : Type) where
  | more
  | bad
  | item (length : Nat) (value : β)

/-- Once the parser has found a frame or given up, what follows does not matter; and a frame is
taken off the data. -/
structure Stable (parse : List α → Parse β) : Prop where
  pos : ∀ {data length value}, parse data = .item length value → 0 < length ∧ length ≤ data.length
  item : ∀ {data length value} rest, parse data = .item length value →
    parse (data ++ rest) = .item length value
  bad : ∀ {data} rest, parse data = .bad → parse (data ++ rest) = .bad

/-- The frames taken off, what is left, and whether the parser still goes on. -/
structure Drained (α β : Type) where
  values : List β
  rest : List α
  going : Bool

def Drained.push (value : β) (d : Drained α β) : Drained α β :=
  { d with values := value :: d.values }

def drain (parse : List α → Parse β) (data : List α) : Drained α β :=
  match parse data with
  | .more => ⟨[], data, true⟩
  | .bad => ⟨[], data, false⟩
  | .item length value =>
    if 0 < length ∧ length ≤ data.length then (drain parse (data.drop length)).push value
    else ⟨[], data, false⟩
termination_by data.length
decreasing_by
  rw [length_drop]
  omega

section Drain

variable {parse : List α → Parse β} {data : List α}

theorem drain_more (h : parse data = .more) : drain parse data = ⟨[], data, true⟩ := by
  rw [drain, h]

theorem drain_bad (h : parse data = .bad) : drain parse data = ⟨[], data, false⟩ := by
  rw [drain, h]

theorem drain_item (hparse : Stable parse) {length : Nat} {value : β}
    (h : parse data = .item length value) :
    drain parse data = (drain parse (data.drop length)).push value := by
  rw [drain, h]
  exact if_pos (hparse.pos h)

/-- What a run adds to an earlier one. -/
def Drained.andThen (d d' : Drained α β) : Drained α β :=
  { d' with values := d.values ++ d'.values }

/-- Draining again after more has arrived is the same as draining late, and a parser that has given
up finds the same frames whatever follows. -/
theorem drain_append (hparse : Stable parse) (data rest : List α) :
    drain parse (data ++ rest) =
      if (drain parse data).going = true then
        (drain parse data).andThen (drain parse ((drain parse data).rest ++ rest))
      else { drain parse data with rest := (drain parse data).rest ++ rest } := by
  induction hn : data.length using Nat.strong_induction_on generalizing data with
  | h n ih =>
    cases hdata : parse data with
    | more =>
      rw [drain_more hdata]
      rfl
    | bad =>
      rw [drain_bad hdata, drain_bad (hparse.bad rest hdata)]
      rfl
    | item length value =>
      obtain ⟨hpos, hle⟩ := hparse.pos hdata
      rw [drain_item hparse hdata, drain_item hparse (hparse.item rest hdata),
        drop_append_of_le_length hle,
        ih (data.drop length).length (by rw [length_drop]; omega) _ rfl]
      exact apply_ite (Drained.push value) _ _ _

/-! ### Pieces -/

/-- A piece arrives. Once the parser has given up nothing more is read. -/
def feed (parse : List α → Parse β) (d : Drained α β) (piece : List α) : Drained α β :=
  if d.going then d.andThen (drain parse (d.rest ++ piece)) else d

/-- **However the data is cut into pieces, the same frames are found.** -/
theorem feed_flatten (hparse : Stable parse) (hnil : parse [] = .more) (pieces : List (List α)) :
    (pieces.foldl (feed parse) ⟨[], [], true⟩).values = (drain parse pieces.flatten).values ∧
      (pieces.foldl (feed parse) ⟨[], [], true⟩).going = (drain parse pieces.flatten).going ∧
      ((drain parse pieces.flatten).going = true →
        (pieces.foldl (feed parse) ⟨[], [], true⟩).rest = (drain parse pieces.flatten).rest) := by
  induction pieces using List.reverseRecOn with
  | nil =>
    rw [flatten_nil, drain_more hnil]
    exact ⟨rfl, rfl, fun _ => rfl⟩
  | append_singleton pieces piece ih =>
    obtain ⟨hvalues, hgoing, hrest⟩ := ih
    simp only [foldl_append, foldl_cons, flatten_append, flatten_cons, flatten_nil, append_nil]
    cases h : (drain parse pieces.flatten).going with
    | true =>
      rw [feed, if_pos (hgoing.trans h), hrest h, drain_append hparse pieces.flatten, if_pos h]
      refine ⟨?_, rfl, fun _ => rfl⟩
      exact congrArg (· ++ _) hvalues
    | false =>
      rw [feed, if_neg (by simp [hgoing, h]), drain_append hparse pieces.flatten,
        if_neg (by simp [h])]
      exact ⟨hvalues, hgoing, fun hgo => by cases h.symm.trans hgo⟩

end Drain

end Framing
