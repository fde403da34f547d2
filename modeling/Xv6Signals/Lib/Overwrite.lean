import Mathlib.Logic.Function.Basic

namespace Lib
open Function

universe u v

variable {α : Type u} {β : Type v} [DecidableEq α] {f g : α → β} {ws : List (α × β)} {a : α}

/-- A function after a list of writes, of which a later one takes precedence. -/
def overwrite (f : α → β) (ws : List (α × β)) : α → β :=
  ws.foldl (fun f w => update f w.1 w.2) f

def replay (f : α → β) (txs : List (List (α × β))) : α → β := txs.foldl overwrite f

theorem overwrite_concat (a : α) (b : β) :
    overwrite f (ws ++ [(a, b)]) = update (overwrite f ws) a b := by
  rw [overwrite, List.foldl_append]
  rfl

theorem replay_concat (txs : List (List (α × β))) :
    replay f (txs ++ [ws]) = overwrite (replay f txs) ws := by
  rw [replay, List.foldl_append]
  rfl

theorem overwrite_of_notMem (h : a ∉ ws.map Prod.fst) : overwrite f ws a = f a := by
  induction ws generalizing f with
  | nil => rfl
  | cons w ws ih =>
    rw [List.map_cons, List.mem_cons, not_or] at h
    calc overwrite f (w :: ws) a = update f w.1 w.2 a := ih h.2
      _ = f a := update_of_ne h.1 ..

theorem overwrite_of_mem (f g : α → β) (h : a ∈ ws.map Prod.fst) :
    overwrite f ws a = overwrite g ws a := by
  induction ws generalizing f g with
  | nil => cases h
  | cons w ws ih =>
    by_cases hw : a ∈ ws.map Prod.fst
    · exact ih _ _ hw
    rw [List.map_cons, List.mem_cons, or_iff_left hw] at h
    calc overwrite f (w :: ws) a = update f w.1 w.2 a := overwrite_of_notMem hw
      _ = w.2 := by rw [h, update_self]
      _ = update g w.1 w.2 a := by rw [h, update_self]
      _ = overwrite g (w :: ws) a := (overwrite_of_notMem hw).symm

end Lib
