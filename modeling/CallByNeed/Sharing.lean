/-!
Sharing states. A container may be written in place while it is temporary or has one owner; from
the moment it is shared every writer works on a copy. States only move up.
-/
namespace CallByNeed

inductive Sharing where
  /-- Fresh, held only by the expression that made it. -/
  | temporary
  /-- Bound to one owner. -/
  | nonShared
  /-- Held by more than one owner. -/
  | shared
  /-- Never writable again, as literals are. -/
  | permanent
deriving DecidableEq, Repr, Inhabited

namespace Sharing

def all : List Sharing := [temporary, nonShared, shared, permanent]

def rank : Sharing → Nat
  | temporary => 0
  | nonShared => 1
  | shared => 2
  | permanent => 3

def name : Sharing → String
  | temporary => "Temporary"
  | nonShared => "NonShared"
  | shared => "Shared"
  | permanent => "SharedPermanent"

def isShared : Sharing → Bool
  | shared | permanent => true
  | temporary | nonShared => false

/-- One owner more; shared states stay as they are. -/
def promoted : Sharing → Sharing
  | temporary => nonShared
  | nonShared => shared
  | s => s

theorem rank_le_promoted (s : Sharing) : s.rank ≤ s.promoted.rank := by cases s <;> decide

theorem isShared_iff (s : Sharing) : s.isShared = true ↔ shared.rank ≤ s.rank := by
  cases s <;> decide

/-- The state of a child after it was stored into or taken out of an owner: a child of an owned
container has an owner, and one of a shared container has several. -/
def childOf (owner child : Sharing) : Sharing :=
  if child.isShared || owner = temporary then child
  else
    let owned := if child = temporary then child.promoted else child
    if owner.isShared then owned.promoted else owned

end Sharing
end CallByNeed
