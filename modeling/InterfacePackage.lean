import InterfacePackage.Command.Toolbox
import InterfacePackage.Main
import InterfacePackage.Proofs.Import.Settled
import InterfacePackage.Proofs.Import.Lines
import InterfacePackage.Proofs.Import.Table
import InterfacePackage.Proofs.Import.Endings
import InterfacePackage.Proofs.Command.Requests
import InterfacePackage.Proofs.Settings.CommandLine
import InterfacePackage.Proofs.Settings.Layers
import InterfacePackage.Proofs.Export.Repeat
import InterfacePackage.Proofs.Export.Inputs
import InterfacePackage.Proofs.Export.Compiled
import InterfacePackage.Proofs.Export.Calls
import InterfacePackage.Proofs.Export.Phases
import InterfacePackage.Proofs.Package.Manifest
import InterfacePackage.Proofs.Path.Climbs
import InterfacePackage.Proofs.Import.Fragment
import InterfacePackage.Proofs.Import.Shadowed
import InterfacePackage.Proofs.Export.Refusal
import InterfacePackage.Proofs.Export.Vacancy
import InterfacePackage.Proofs.Command.LockFiles
import InterfacePackage.Proofs.Import.Appended
import InterfacePackage.Proofs.Import.Spelling
import InterfacePackage.Proofs.Import.Keyword
import InterfacePackage.Proofs.Export.Discovery
import InterfacePackage.Proofs.Package.Overlay
import InterfacePackage.Proofs.Package.Summary
import InterfacePackage.Proofs.Path.Normal
import InterfacePackage.Proofs.Import.Statement
