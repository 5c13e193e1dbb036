import MarketMaker.Strategy.Side
import Mathlib.Data.List.Induction
import Mathlib.Data.List.Nodup

/-!
# Orderly commands

What the commands of one connection must look like, in the order they are emitted: ids of new
orders are fresh, a cancel names an order sent before and not cancelled before, and nothing new
follows a stop. `Orderly` builds such lists one command at a time, as the strategy emits them.
-/

namespace MarketMaker

/-- The ids of the new orders among commands. -/
def newIds (cmds : List Cmd) : List Bytes :=
  cmds.filterMap fun
    | .send (.newOrder m) => some m.clId
    | _ => none

/-- The ids of the cancels among commands. -/
def cancelIds (cmds : List Cmd) : List Bytes :=
  cmds.filterMap fun
    | .send (.cancelOrder m) => some m.clId
    | _ => none

/-- The commands announce a stop. -/
def Stops (cmds : List Cmd) : Prop := ∃ reason, .stopQuoting reason ∈ cmds

@[simp]
theorem newIds_append (cmds cmds' : List Cmd) :
    newIds (cmds ++ cmds') = newIds cmds ++ newIds cmds' :=
  List.filterMap_append

@[simp]
theorem cancelIds_append (cmds cmds' : List Cmd) :
    cancelIds (cmds ++ cmds') = cancelIds cmds ++ cancelIds cmds' := List.filterMap_append

theorem stops_concat_send {cmds : List Cmd} {msg : InMsg} :
    Stops (cmds ++ [.send msg]) ↔ Stops cmds := by
  simp [Stops]

/-- The commands of a connection, in order: ids are fresh, a cancel names an order sent before and
not cancelled before, and nothing new is sent after a stop. -/
inductive Orderly : List Cmd → Prop
  | nil : Orderly []
  | new {cmds : List Cmd} {m : NewOrder} (h : Orderly cmds) (fresh : m.clId ∉ newIds cmds)
      (running : ¬ Stops cmds) : Orderly (cmds ++ [.send (.newOrder m)])
  | cancel {cmds : List Cmd} {m : CancelOrder} (h : Orderly cmds) (sent : m.clId ∈ newIds cmds)
      (once : m.clId ∉ cancelIds cmds) : Orderly (cmds ++ [.send (.cancelOrder m)])
  | stop {cmds : List Cmd} {reason : Bytes} (h : Orderly cmds) :
      Orderly (cmds ++ [.stopQuoting reason])

namespace Orderly

variable {cmds : List Cmd}

theorem nodup_newIds (h : Orderly cmds) : (newIds cmds).Nodup := by
  induction h with
  | nil => exact List.nodup_nil
  | new _ fresh _ ih =>
    rw [newIds_append, List.nodup_append]
    refine ⟨ih, List.nodup_singleton _, fun a ha b hb => ?_⟩
    obtain rfl := List.mem_singleton.mp hb
    exact fun heq => fresh (heq ▸ ha)
  | cancel _ _ _ ih => simpa [newIds] using ih
  | stop _ ih => simpa [newIds] using ih

theorem nodup_cancelIds (h : Orderly cmds) : (cancelIds cmds).Nodup := by
  induction h with
  | nil => exact List.nodup_nil
  | new _ _ _ ih => simpa [cancelIds] using ih
  | cancel _ _ once ih =>
    rw [cancelIds_append, List.nodup_append]
    refine ⟨ih, List.nodup_singleton _, fun a ha b hb => ?_⟩
    obtain rfl := List.mem_singleton.mp hb
    exact fun heq => once (heq ▸ ha)
  | stop _ ih => simpa [cancelIds] using ih

/-- The last command of a list that is cut before its end is the last command of the tail. -/
theorem cut_concat {α : Type*} {xs before after : List α} {x y : α}
    (h : xs ++ [y] = before ++ x :: after) :
    (after = [] ∧ before = xs ∧ x = y) ∨
      ∃ after', after = after' ++ [y] ∧ xs = before ++ x :: after' := by
  induction after using List.reverseRecOn with
  | nil =>
    have hboth := List.append_inj' h rfl
    exact .inl ⟨rfl, hboth.1.symm, (List.singleton_inj.mp hboth.2).symm⟩
  | append_singleton after' z _ =>
    rw [← List.cons_append, ← List.append_assoc] at h
    have hboth := List.append_inj' h rfl
    obtain rfl := List.singleton_inj.mp hboth.2
    exact .inr ⟨after', rfl, hboth.1⟩

/-- A cancel comes after the new order it names. -/
theorem sent_before (h : Orderly cmds) {before after : List Cmd} {m : CancelOrder}
    (hcut : cmds = before ++ .send (.cancelOrder m) :: after) : m.clId ∈ newIds before := by
  induction h generalizing after with
  | nil => simp at hcut
  | new _ _ _ ih =>
    obtain ⟨-, -, heq⟩ | ⟨after', -, hcut'⟩ := cut_concat hcut
    · cases heq
    · exact ih hcut'
  | cancel _ sent _ ih =>
    obtain ⟨-, rfl, heq⟩ | ⟨after', -, hcut'⟩ := cut_concat hcut
    · cases heq
      exact sent
    · exact ih hcut'
  | stop _ ih =>
    obtain ⟨-, -, heq⟩ | ⟨after', -, hcut'⟩ := cut_concat hcut
    · cases heq
    · exact ih hcut'

/-- Nothing new is sent after a stop. -/
theorem silent_after (h : Orderly cmds) {before after : List Cmd} {reason : Bytes}
    (hcut : cmds = before ++ .stopQuoting reason :: after) : newIds after = [] := by
  induction h generalizing after with
  | nil => simp at hcut
  | new _ _ running ih =>
    obtain ⟨-, -, heq⟩ | ⟨after', -, rfl⟩ := cut_concat hcut
    · cases heq
    · exact absurd ⟨reason, by simp⟩ running
  | cancel _ _ _ ih =>
    obtain ⟨rfl, -, -⟩ | ⟨after', rfl, hcut'⟩ := cut_concat hcut
    · rfl
    · rw [newIds_append, ih hcut']
      rfl
  | stop _ ih =>
    obtain ⟨rfl, -, -⟩ | ⟨after', rfl, hcut'⟩ := cut_concat hcut
    · rfl
    · rw [newIds_append, ih hcut']
      rfl

end Orderly

end MarketMaker
