import Kyuzen.Kfs.Vnode

/-!
Path resolution of `kfs_dir.c`, on a mounted filesystem. A path walk takes `fs_lock` for each
component on its own.
-/

namespace Kyuzen.Kfs

/-- The components of a path: the non-empty parts between slashes. -/
def components (path : Name) : List Name := (path.splitOn 47).filter (· ≠ [])

def releaseAll (fs : Fs) : List Nat → Fs
  | [] => fs
  | h :: rest => releaseAll (v4Release fs h) rest

/-- The first critical section of `kfs_walk_path`: the vnode of the root. -/
def rootVnode (fs : Fs) : Except Rc Nat × Fs :=
  match inoGetNolock fs fs.vol.rootIno with
  | (.error _, fs1) => (.error .enoent, fs1)
  | (.ok re, fs1) =>
    match vnodeWrapLocked fs1 re with
    | (.error _, fs2) => (.error .enomem, inoPutNolock fs2 re)
    | r => r

/-- The component loop of `kfs_walk_path`. `stack` holds the vnodes from the
current one down to the root. -/
def walkLoop : List Name → Fs → List Nat → Rc × Fs × List Nat
  | [], fs, stack => (.eok, fs, stack)
  | comp :: rest, fs, stack =>
    if comp.length > 255 then (.enametoolong, fs, stack)
    else if comp = dotName then walkLoop rest fs stack
    else if comp = dotdotName then
      match stack with
      | cur :: below :: more => walkLoop rest (v4Release fs cur) (below :: more)
      | _ => walkLoop rest fs stack
    else if stack.length > 32 then (.einval, fs, stack)
    else
      match stack with
      | [] => (.einval, fs, stack)
      | cur :: _ =>
        match fs.vnode cur with
        | none => (.einval, fs, stack)
        | some n =>
          if n.type ≠ .vDir then (.enotdir, fs, stack)
          else
            match v4Lookup fs cur comp with
            | (.error rc, fs1) => (rc, fs1, stack)
            | (.ok next, fs1) => walkLoop rest fs1 (next :: stack)

/-- `kfs_walk_path`: the vnode that a path names. -/
def kfsWalkPath (fs : Fs) (path : Name) : Except Rc Nat × Fs :=
  match rootVnode fs with
  | (.error rc, fs1) => (.error rc, fs1)
  | (.ok root, fs1) =>
    match walkLoop (components path) fs1 [root] with
    | (.eok, fs2, cur :: below) => (.ok cur, releaseAll fs2 below.reverse)
    | (.eok, fs2, []) => (.error .einval, fs2)
    | (rc, fs2, stack) => (.error rc, releaseAll fs2 stack.reverse)

/-- The path without its trailing slashes (one is kept when nothing else is left). -/
def trimSlashes (path : Name) : Name :=
  match (path.reverse.dropWhile (· = 47)).reverse with
  | [] => path.take 1
  | p => p

/-- The split of `kfs_walk_parent`: the text before the last component and the
component itself. -/
def splitParent (path : Name) : Except Rc (Name × Name) :=
  let p := trimSlashes path
  let name := (p.reverse.takeWhile (· ≠ 47)).reverse
  if p = [] ∨ name = [] ∨ name = dotName ∨ name = dotdotName then .error .einval
  else if name.length + 1 > 256 then .error .enametoolong
  else if p.length - name.length ≥ 512 then .error .enametoolong
  else .ok (p.take (p.length - name.length), name)

/-- `kfs_walk_parent`: the vnode of the parent and the last name. -/
def kfsWalkParent (fs : Fs) (path : Name) : Except Rc (Nat × Name) × Fs :=
  match splitParent path with
  | .error rc => (.error rc, fs)
  | .ok (parent, name) =>
    match kfsWalkPath fs parent with
    | (.error rc, fs1) => (.error rc, fs1)
    | (.ok h, fs1) => (.ok (h, name), fs1)

end Kyuzen.Kfs
