import Patchwork.Agenda
import Patchwork.Document.Subtree
import Patchwork.Layer.Load
import Patchwork.Layer.Vacant
import Patchwork.Renderer.Host
import Patchwork.Script.Eval
import Patchwork.Proofs.FlushCompleteness
import Patchwork.Proofs.DocumentRoundTrip
import Patchwork.Proofs.IncrementalRendering
import Patchwork.Proofs.NodeAccounting
import Patchwork.Proofs.ListenerAccounting
import Patchwork.Proofs.EntrySurvival
import Patchwork.Proofs.StateUpdates
import Patchwork.Proofs.NestedCalls
import Patchwork.Proofs.MarkupNormalForm
import Patchwork.Proofs.AttributeHistory
import Patchwork.Proofs.ActivationAccounting
import Patchwork.Proofs.SiblingRows
import Patchwork.Proofs.UpdateFrame
import Patchwork.Proofs.CellPersistence
import Patchwork.Proofs.EventBubbling
import Patchwork.Proofs.SchedulerRequests
import Patchwork.Proofs.FormatRoundTrip
import Patchwork.Proofs.ValueChildren
import Patchwork.Proofs.TemplateIndentation
import Patchwork.Proofs.DocumentForest
import Patchwork.Proofs.UnclosedTemplates
import Patchwork.Proofs.SegmentRoundTrip
