import Bloar.Reach
import Bloar.Refinement

/-!
What a call does when it does not finish, and in which order it writes when it
does. The configuration is arbitrary, so an error may come from any access of a
call, and a process that stops before some access is a configuration that fails
from there on. Such a call leaves the head as it found it. A call that returns
has written every block of its new index, apart from those the old root already
reached, before it swaps the root in.
-/

namespace Bloar.Archive
open Ipld Schema Fallible
variable {σ : Type} {ipld : Codec} {cfg : Config σ} {present : σ → Cid → Prop}
variable {params : Params} {f : Flat} {w w' : World σ}

/-- The block is one of the given ones or was written since the log was empty. -/
def Written (old : Cid → Prop) (w : World σ) (c : Cid) : Prop := old c ∨ Event.put c ∈ w.history

theorem written_unobserved (old : Cid → Prop) : Unobserved (Written old : World σ → Cid → Prop) :=
  fun _ _ _ held => held.imp id (List.mem_cons_of_mem _)

theorem Durable.upholds_written (durable : Durable ipld cfg present) (old : Cid → Prop) :
    Upholds ipld cfg (Written old) True True where
  reads _ := trivial
  scratch := by
    intro w w' c same held
    unfold Written at held ⊢
    rw [same.history]
    exact held
  get_keeps c w := by
    rcases getBlock_cases cfg c w with ⟨_, -, ran⟩ | ⟨_, ran⟩ <;> rw [ran] <;>
      exact ⟨fun _ held => held, rfl, [], rfl⟩
  put_keeps c block w := by
    rcases putBlock_cases cfg c block w with ⟨-, ran⟩ | ⟨_, ran⟩ <;> rw [ran]
    · exact ⟨fun _ held => held.imp id (List.mem_cons_of_mem _), rfl, [c], rfl⟩
    · exact ⟨fun _ held => held, rfl, [], rfl⟩
  resolve_keeps resolve resolver vh w := ⟨fun _ held => held, rfl, [], rfl⟩
  get_honest _ := durable.getBlock_honest _ _
  get_held := by
    intro c w held
    unfold Post
    split <;> trivial
  put_held block w := by
    unfold Post
    rcases putBlock_cases cfg (ipld.nodeCID block) block w with ⟨-, ran⟩ | ⟨_, ran⟩ <;> rw [ran]
    · exact .inr (by simp)
    · trivial

def IndexBlock (ipld : Codec) (st : State) (c : Cid) : Prop :=
  ∃ root kind, st.root = some root ∧ Reaches ipld root kind c

theorem Represents.indexBlock_held {holds : World σ → Cid → Prop} {m : Contents} {c : Cid}
    (represents : Represents ipld params holds w m) (block : IndexBlock ipld w.cur c) :
    holds w c := by
  obtain ⟨root, kind, at_root, reached⟩ := block
  exact represents.reaches_held at_root reached

/-- Before a call, what the old root reaches counts as written. -/
theorem Represents.written {holds : World σ → Cid → Prop} {m : Contents}
    (represents : Represents ipld params holds w m) :
    Represents ipld params (Written (IndexBlock ipld w.cur)) w m := by
  have stored : ∀ {n : Node}, IndexNode ipld params m n → Stored ipld holds w n →
      Stored ipld (Written (IndexBlock ipld w.cur)) w n := by
    intro n node stored
    obtain ⟨kind, reached⟩ := represents.node_reached represents.root node
    exact ⟨.inl ⟨_, kind, represents.root, reached⟩, stored.fits⟩
  exact ⟨⟨represents.state, represents.usable, represents.valid,
    fun n body => stored (.inr body) (represents.stored n body)⟩, represents.root,
    stored (.inl rfl) represents.rootStored⟩

end Bloar.Archive
