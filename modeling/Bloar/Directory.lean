import Bloar.Storage

/-!
The directory of sealed segments (`archive/dir.go`): an append-only radix tree
of pages addressed by the digits of an index. The functions are those of the
source; a page is written by committing its kids, and the encoder trims trailing
nulls.
-/

namespace Bloar.Archive
open Ipld Schema Arith Fallible

variable {σ : Type} (ipld : Codec) (cfg : Config σ)

def commitDirNode (text : String) (kids : List Link) : Engine σ Cid := do
  let (c, _) ← within text ((newNode { kids : DirNode }).commit cfg (dirs ipld))
  pure c

def loadKids (node : Link) : Engine σ (List Link) :=
  match node with
  | none => pure []
  | some c => do
      let n ← within "archive: reading dirnode" (getNode cfg (dirs ipld) (some c))
      pure n.kids

def growTo (kids : List Link) (n : Nat) : List Link :=
  kids ++ List.replicate (n - kids.length) none

def clampTo (kids : List Link) (n : Nat) : List Link :=
  if kids.length > n then kids.take n else kids

def dirSet (node : Link) (digits : List Nat) (kid : Link) : Engine σ Link :=
  match digits with
  | [] => pure kid
  | d :: rest => do
      let kids ← loadKids ipld cfg node
      let newChild ← dirSet (kids[d]?.join) rest kid
      let c ← commitDirNode ipld cfg "archive: writing dirnode"
        ((growTo kids (d + 1)).set d newChild)
      pure (some c)

def dirAppend (dir : Link) (depth fanoutBits i : Nat) (kid : Link) : Engine σ (Link × Nat) :=
  if depth = 0 then
    if i ≠ 0 then
      fail (.plain s!"archive: internal: first directory append must be index 0, got {i}")
    else do
      let c ← commitDirNode ipld cfg "archive: writing first dirnode" [kid]
      pure (some c, 1)
  else do
    let full := capacity depth fanoutBits
    let (dir, depth) ←
      (if i = full then do
        let c ← commitDirNode ipld cfg "archive: growing directory" [dir]
        pure (some c, depth + 1)
      else if i > full then
        fail (.plain (s!"archive: internal: directory append of index {i} past capacity {full} " ++
          s!"at depth {depth}; appends must be contiguous"))
      else pure (dir, depth))
    match pathDigits i depth fanoutBits with
    | none => fail (.plain s!"archive: internal: index {i} does not fit a depth-{depth} directory")
    | some digits => do
        let newDir ← dirSet ipld cfg dir digits kid
        pure (newDir, depth)

def dirTruncate (node : Link) (digits : List Nat) : Engine σ Link :=
  match digits with
  | [] => fail (.plain "index out of range")
  | d :: rest => do
      let kids ← loadKids ipld cfg node
      let kids ←
        (if rest = [] then pure (clampTo kids d)
        else if allZero rest then pure (clampTo kids d)
        else
          match kids[d]? with
          | some (some child) => do
              let child ← dirTruncate (some child) rest
              pure ((growTo (clampTo kids d) (d + 1)).set d child)
          | _ => fail (.plain (s!"archive: internal: directory page has no child {d}, " ++
              "but entries below it survive truncation")))
      let c ← commitDirNode ipld cfg "archive: writing truncated dirnode" kids
      pure (some c)

def dirShrink (dir : Link) (depth : Nat) : Engine σ (Link × Nat) :=
  match depth with
  | depth + 2 => do
      let node ← within "archive: reading dirnode" (getNode cfg (dirs ipld) dir)
      match node.kids with
      | [some kid] => dirShrink (some kid) (depth + 1)
      | _ => pure (dir, depth + 2)
  | depth => pure (dir, depth)

section Keeps
variable {ipld : Codec} {cfg : Config σ} {holds : World σ → Cid → Prop} {unread flaky : Prop}

section
variable (up : Upholds ipld cfg holds unread flaky)
include up

theorem Upholds.commitDirNode_keeps (text : String)
    (kids : List Link) : Keeps (Grows holds) (commitDirNode ipld cfg text kids) :=
  keeps_bind (keeps_within (up.commit_keeps up.dirs_writes _)) fun _ =>
    keeps_pure _

theorem Upholds.loadKids_keeps (node : Link) :
    Keeps (Grows holds) (loadKids ipld cfg node) := by
  cases node with
  | none => exact keeps_pure _
  | some c =>
    exact keeps_bind (keeps_within (getNode_keeps up.get_keeps _)) fun _ => keeps_pure _

theorem Upholds.dirSet_keeps (digits : List Nat)
    (node kid : Link) : Keeps (Grows holds) (dirSet ipld cfg node digits kid) := by
  induction digits generalizing node with
  | nil => exact keeps_pure _
  | cons d rest ih =>
    refine keeps_bind (up.loadKids_keeps node) fun kids => ?_
    refine keeps_bind (ih _) fun child => ?_
    exact keeps_bind (up.commitDirNode_keeps _ _) fun _ => keeps_pure _

theorem Upholds.dirAppend_keeps (dir : Link)
    (depth fanoutBits i : Nat) (kid : Link) :
    Keeps (Grows holds) (dirAppend ipld cfg dir depth fanoutBits i kid) := by
  refine keeps_ite (fun _ => ?_) fun _ => ?_
  · refine keeps_ite (fun _ => keeps_fail _) fun _ => ?_
    exact keeps_bind (up.commitDirNode_keeps _ _) fun _ => keeps_pure _
  · refine keeps_bind ?_ ?_
    · refine keeps_ite (fun _ => ?_) fun _ =>
        keeps_ite (fun _ => keeps_fail _) fun _ =>
          keeps_pure _
      exact keeps_bind (up.commitDirNode_keeps _ _) fun _ => keeps_pure _
    · rintro ⟨dir, depth⟩
      dsimp only
      cases pathDigits i depth fanoutBits with
      | none => exact keeps_fail _
      | some digits =>
        exact keeps_bind (up.dirSet_keeps _ _ _) fun _ => keeps_pure _

theorem Upholds.dirTruncate_keeps (digits : List Nat)
    (node : Link) : Keeps (Grows holds) (dirTruncate ipld cfg node digits) := by
  induction digits generalizing node with
  | nil => exact keeps_fail _
  | cons d rest ih =>
    refine keeps_bind (up.loadKids_keeps node) fun kids => ?_
    refine keeps_bind ?_ fun kept => ?_
    · refine keeps_ite (fun _ => keeps_pure _) fun _ =>
        keeps_ite (fun _ => keeps_pure _) fun _ => ?_
      split
      · exact keeps_bind (ih _) fun _ => keeps_pure _
      · exact keeps_fail _
    · exact keeps_bind (up.commitDirNode_keeps _ _) fun _ => keeps_pure _

theorem Upholds.dirShrink_keeps (depth : Nat) (dir : Link) :
    Keeps (Grows holds) (dirShrink ipld cfg dir depth) := by
  induction depth generalizing dir with
  | zero => exact keeps_pure _
  | succ depth ih =>
    cases depth with
    | zero => exact keeps_pure _
    | succ depth =>
      refine keeps_bind (keeps_within (getNode_keeps up.get_keeps _)) fun node => ?_
      split
      · exact ih _
      · exact keeps_pure _

end

end Keeps

end Bloar.Archive
