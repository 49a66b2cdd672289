import XorEditor.Agent.HardcodedRules
import XorEditor.Collaboration.ChannelInvite
import XorEditor.Collaboration.Presence
import XorEditor.Collaboration.PushLease
import XorEditor.Collaboration.ReadPublish
import XorEditor.Collaboration.Retention
import XorEditor.Comfy.Identifiers
import XorEditor.Comfy.Reroutes
import XorEditor.Comfy.SaveGuard
import XorEditor.EditSession.Reindent
import XorEditor.Editor.WrapRows
import XorEditor.Nostr.PairingSafety
import XorEditor.Rope.ChunkSummary
import XorEditor.SumTree.BulkEdit
import XorEditor.Text.AnchorOrder
import XorEditor.Text.Convergence
import XorEditor.Text.Delivery
import XorEditor.Text.EditsInRange
import XorEditor.Text.LineEnding
import XorEditor.Text.PatchCompose
import XorEditor.Comfy.HandleAccounts
import XorEditor.Comfy.HandleHolders
import XorEditor.Comfy.HandleRuns
import XorEditor.SumTree.Refinement
import XorEditor.Agent.ShellValidation
import XorEditor.SumTree.CursorList
import XorEditor.Text.FragmentTree
