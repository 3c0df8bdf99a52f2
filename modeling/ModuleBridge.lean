import ModuleBridge.Main
import ModuleBridge.Proofs.Emit.AwaitWrapper
import ModuleBridge.Proofs.Emit.DefaultValue
import ModuleBridge.Proofs.Emit.EscapedSpecifier
import ModuleBridge.Proofs.Emit.Exports
import ModuleBridge.Proofs.Emit.ImportBindings
import ModuleBridge.Proofs.Grammar.Balance
import ModuleBridge.Proofs.Grammar.Classification
import ModuleBridge.Proofs.Grammar.CommentBlanks
import ModuleBridge.Proofs.Grammar.Continuation
import ModuleBridge.Proofs.Grammar.FaultPlaces
import ModuleBridge.Proofs.Lossy.FlatPatterns
import ModuleBridge.Proofs.Path.Anchoring
import ModuleBridge.Proofs.Project.DiagnosticFiles
import ModuleBridge.Proofs.Project.Exclusions
import ModuleBridge.Proofs.Project.OutputFiles
import ModuleBridge.Proofs.Project.Relocation
import ModuleBridge.Proofs.Project.Report
import ModuleBridge.Proofs.Source.SafeSession
import ModuleBridge.Proofs.Source.TemplateWords
import ModuleBridge.Proofs.Source.TriviaGrammar
import ModuleBridge.Proofs.Text.Templates
